import Mathlib.Algebra.Group.Nat.Defs
import Pgrust.CopyLineScan

/-!
The segmentator of parallel COPY: it scans read buffers for row boundaries and cuts the stream into
chunks of rows. Whatever the buffers, its state after some of them is the line scan's state after
their bytes, so its chunks are the scan's groups.
-/

namespace CopySegmentator

open CopyText CopyLineScan List Nat

structure ChunkSeg where
  buf : List UInt8
  start : Nat
  stop : Nat
  deriving DecidableEq

def ChunkSeg.bytes (seg : ChunkSeg) : List UInt8 := (seg.buf.take seg.stop).drop seg.start

/-- A segment is a range of its buffer. -/
def ChunkSeg.Fits (seg : ChunkSeg) : Prop := seg.start ≤ seg.stop ∧ seg.stop ≤ seg.buf.length

structure ChunkDesc where
  firstLineno : Nat
  segs : List ChunkSeg
  deriving DecidableEq

def segBytes (segs : List ChunkSeg) : List UInt8 := (segs.map ChunkSeg.bytes).flatten

def ChunkDesc.bytes (chunk : ChunkDesc) : List UInt8 := segBytes chunk.segs

/-- A chunk as the number of its first line and its bytes. -/
def ChunkDesc.view (chunk : ChunkDesc) : Nat × List UInt8 := (chunk.firstLineno, chunk.bytes)

def ChunkDesc.Fits (chunk : ChunkDesc) : Prop := ∀ seg ∈ chunk.segs, seg.Fits

/-- The chunks handed over are the groups of lines. -/
def Cuts (out : List ChunkDesc) (chunks : List (List (List UInt8))) : Prop :=
  out.map ChunkDesc.view = numbered 1 chunks ∧ ∀ chunk ∈ out, chunk.Fits

/-- `line_head` holds the captured bytes only, `trailing_bs` a 32-bit count. -/
structure Segmentator where
  eol : EolType
  rowsPerChunk : Nat
  segs : List ChunkSeg
  rows : Nat
  firstLineno : Nat
  rowsTotal : Nat
  trailingBs : Nat
  lineHead : List UInt8
  pendingCr : Bool
  prevEndedCr : Bool
  detectEsc : Bool
  eoc : Bool
  deriving DecidableEq

namespace Segmentator

def new (rowsPerChunk : Nat) : Segmentator where
  eol := .unknown
  rowsPerChunk := rowsPerChunk
  segs := []
  rows := 0
  firstLineno := 1
  rowsTotal := 0
  trailingBs := 0
  lineHead := []
  pendingCr := false
  prevEndedCr := false
  detectEsc := false
  eoc := false

/-- Backslash-run parity before `pos`; a run that reaches the buffer's start goes on in the buffer
before. -/
def bsParityEven (seg : Segmentator) (data : List UInt8) (pos : Nat) : Bool :=
  let run := bsRun (data.take pos)
  (run % 2 ^ 32 + if run = pos then seg.trailingBs else 0) % 2 ^ 32 % 2 = 0

def lineFirst2 (seg : Segmentator) (data : List UInt8) (start upto : Nat) : List UInt8 :=
  (seg.lineHead ++ (data.take upto).drop start).take 2

def cutChunk (seg : Segmentator) (out : List ChunkDesc) : Segmentator × List ChunkDesc :=
  if seg.segs = [] then ({ seg with rows := 0, firstLineno := seg.rowsTotal + 1 }, out)
  else
    ({ seg with segs := [], rows := 0, firstLineno := seg.rowsTotal + 1 },
      out ++ [{ firstLineno := seg.firstLineno, segs := seg.segs }])

end Segmentator

/-- The local variables of `feed`. -/
structure Feed where
  seg : Segmentator
  chunkStart : Nat
  lineStart : Nat
  i : Nat
  out : List ChunkDesc

namespace Feed

variable (data : List UInt8)

/-- The bytes from `chunkStart` up to `stop` join the chunk. -/
def push (f : Feed) (stop : Nat) : Feed :=
  { f with seg := { f.seg with segs := f.seg.segs ++ [{ buf := data, start := f.chunkStart, stop := stop }] } }

/-- A chunk is cut at the boundary. -/
def cut (f : Feed) : Feed :=
  { f with
    seg := (f.seg.cutChunk f.out).1
    out := (f.seg.cutChunk f.out).2
    chunkStart := f.i }

/-- The row ends at `i`. -/
def countRow (f : Feed) : Feed :=
  { f with
    seg := { f.seg with rows := f.seg.rows + 1, rowsTotal := f.seg.rowsTotal + 1, lineHead := [], trailingBs := 0 }
    lineStart := f.i }

/-- The row is the end-of-copy marker line. -/
def markEoc (f : Feed) : Feed := { f.countRow with seg := { f.countRow.seg with eoc := true } }

def pushRest (f : Feed) : Feed := if f.chunkStart < f.i then f.push data f.i else f

/-- `row_boundary`: the flag says that the end-of-copy marker line closed. -/
def rowBoundary (f : Feed) : Feed × Bool :=
  if f.seg.lineFirst2 data f.lineStart f.i = [backslash, dot] then
    ((f.markEoc.pushRest data).cut, true)
  else if f.seg.rowsPerChunk ≤ f.countRow.seg.rows then ((f.countRow.push data f.i).cut, false)
  else (f.countRow, false)

/-- How a round of the scan loop ends. -/
inductive Ctl
  | next
  | stop
  | marker

def boundary (f : Feed) : Feed × Ctl := ((f.rowBoundary data).1, if (f.rowBoundary data).2 then .marker else .next)

def setEol (f : Feed) (eol : EolType) : Feed := { f with seg := { f.seg with eol := eol } }

/-- The detect phase, until the first unescaped newline byte. -/
def detect (f : Feed) (b : UInt8) : Feed × Ctl :=
  if f.seg.detectEsc then ({ f with seg := { f.seg with detectEsc := false }, i := f.i + 1 }, .next)
  else if b = backslash then ({ f with seg := { f.seg with detectEsc := true }, i := f.i + 1 }, .next)
  else if b = lf then ({ f.setEol .nl with i := f.i + 1 }).boundary data
  else if b = ret then
    match data[f.i + 1]? with
    | some c =>
      if c = lf then ({ f.setEol .crnl with i := f.i + 2 }).boundary data
      else ({ f.setEol .cr with i := f.i + 1 }).boundary data
    | none => ({ f with seg := { f.seg with pendingCr := true }, i := f.i + 1 }, .next)
  else ({ f with i := f.i + 1 }, .next)

/-- `memchr` from `i` on. -/
def memchr (f : Feed) (b : UInt8) : Option Nat := (data.drop f.i).findIdx? (· = b)

def scanNl (f : Feed) (boundaryAt : Nat → Bool) (b : UInt8) : Feed × Ctl :=
  match f.memchr data b with
  | none => (f, .stop)
  | some j =>
    let f' := { f with i := f.i + j + 1 }
    if boundaryAt (f.i + j) then f'.boundary data else (f', .next)

/-- A line feed in the CR LF style: the carriage return of a pair is the byte before it. -/
def pairAt (f : Feed) (pos : Nat) : Bool :=
  pos ≠ 0 && (data[pos - 1]? = some ret && f.seg.bsParityEven data (pos - 1))

/-- One round of the scan loop. -/
def round (f : Feed) (b : UInt8) : Feed × Ctl :=
  match f.seg.eol with
  | .unknown => f.detect data b
  | .nl => f.scanNl data (f.seg.bsParityEven data) lf
  | .crnl => f.scanNl data (f.pairAt data) lf
  | .cr => f.scanNl data (f.seg.bsParityEven data) ret

def after (next : Feed → Feed × Bool) : Feed × Ctl → Feed × Bool
  | (f, .next) => next f
  | (f, .stop) => (f, false)
  | (f, .marker) => (f, true)

def loop : Nat → Feed → Feed × Bool
  | 0, f => (f, false)
  | fuel + 1, f =>
    match data[f.i]? with
    | none => (f, false)
    | some b => after (loop fuel) (f.round data b)

/-- The first byte decides the style of a carriage return at the end of the buffer before. -/
def resumeCr (f : Feed) : Feed :=
  if data.head? = some lf then { f with seg := { f.seg with pendingCr := false, eol := .crnl }, i := 1 }
  else { f with seg := { f.seg with pendingCr := false, eol := .cr }, i := 0 }

/-- A newline that the buffer before left open is settled by the first byte. -/
def resume (f : Feed) : Feed × Bool :=
  if f.seg.pendingCr then (f.resumeCr data).rowBoundary data
  else if f.seg.prevEndedCr && f.seg.eol = .crnl && data.head? = some lf then
    ({ f with seg := { f.seg with prevEndedCr := false }, i := 1 }).rowBoundary data
  else (f, false)

/-- `feed` starts from what the buffers before left. -/
def enter (seg : Segmentator) (out : List ChunkDesc) : Feed where
  seg := seg
  chunkStart := 0
  lineStart := 0
  i := 0
  out := out

def clearPrevCr (f : Feed) : Feed := { f with seg := { f.seg with prevEndedCr := false } }

/-- The end of the buffer: its rest joins the chunk, and what the next buffer needs is kept. -/
def carry (f : Feed) : Feed :=
  let run := bsRun data
  { f with
    seg := { f.seg with
      segs := if f.chunkStart < data.length then (f.push data data.length).seg.segs else f.seg.segs
      prevEndedCr := f.seg.eol = .crnl && data.getLast? = some ret && f.seg.bsParityEven data (data.length - 1)
      trailingBs := ((if run = data.length then f.seg.trailingBs else 0) + run % 2 ^ 32) % 2 ^ 32
      lineHead := f.seg.lineHead ++ (data.drop f.lineStart).take (2 - f.seg.lineHead.length) } }

end Feed

/-- `Segmentator::feed`: the state, the chunks so far and the number of bytes consumed. -/
def Segmentator.feed (seg : Segmentator) (data : List UInt8) (out : List ChunkDesc) :
    Segmentator × List ChunkDesc × Nat :=
  match (Feed.enter seg out).resume data with
  | (f, true) => (f.seg, f.out, f.i)
  | (f, false) =>
    match Feed.loop data data.length f.clearPrevCr with
    | (f, true) => (f.seg, f.out, f.i)
    | (f, false) => ((f.carry data).seg, (f.carry data).out, data.length)

/-- `Segmentator::finish`. -/
def Segmentator.finish (seg : Segmentator) (out : List ChunkDesc) : Segmentator × List ChunkDesc := seg.cutChunk out

/-- The buffers of a stream up to the one with the end-of-copy marker line. -/
def Segmentator.feedAll : Segmentator → List ChunkDesc → List (List UInt8) → Segmentator × List ChunkDesc
  | seg, out, [] => (seg, out)
  | seg, out, buf :: bufs =>
    if seg.eoc then (seg, out) else (seg.feed buf out).1.feedAll (seg.feed buf out).2.1 bufs

/-- A stream from its first buffer to its end. -/
def segment (rowsPerChunk : Nat) (bufs : List (List UInt8)) : Segmentator × List ChunkDesc :=
  let r := (Segmentator.new rowsPerChunk).feedAll [] bufs
  r.1.finish r.2

section Slices

/-- The bytes of a buffer from `a` up to `b`. -/
def mid (data : List UInt8) (a b : Nat) : List UInt8 := (data.take b).drop a

variable {data : List UInt8} {a b c : Nat}

@[simp] theorem mid_self : mid data a a = [] := by
  simp [mid]

theorem mid_eq : mid data a b = (data.drop a).take (b - a) := drop_take

theorem mid_append (hab : a ≤ b) (hbc : b ≤ c) : mid data a b ++ mid data b c = mid data a c := by
  have hsum : c - a = (b - a) + (c - b) := by omega
  have hdrop : a + (b - a) = b := by omega
  rw [mid_eq, mid_eq, mid_eq, hsum, take_add, drop_drop, hdrop]

theorem mid_succ {x : UInt8} (hab : a ≤ b) (hx : data[b]? = some x) : mid data a (b + 1) = mid data a b ++ [x] := by
  rw [← mid_append hab (le_succ b)]
  congr 1
  rw [mid, take_add_one, hx, drop_append_of_le_length, drop_of_length_le]
  · rfl
  · exact length_take_le b data
  · have := (List.getElem?_eq_some_iff.mp hx).1
    rw [length_take]
    omega

theorem mid_to_end (a : Nat) : mid data a data.length = data.drop a := by
  rw [mid, take_length]

theorem mid_ne_nil (hab : a < b) (hb : b ≤ data.length) : mid data a b ≠ [] := by
  intro hnil
  have hlen := congrArg List.length hnil
  rw [mid, length_drop, length_take, length_nil] at hlen
  omega

theorem bsRun_append (xs ys : List UInt8) :
    bsRun (xs ++ ys) = if bsRun ys = ys.length then bsRun xs + ys.length else bsRun ys := by
  induction ys using List.reverseRecOn with
  | nil => simp
  | append_singleton ys y ih =>
    rw [← append_assoc, bsRun_concat, bsRun_concat, ih, length_append, length_singleton]
    by_cases hy : y = backslash
    · split_ifs <;> omega
    · rw [if_neg hy, if_neg hy, if_neg (succ_ne_zero _).symm]

theorem bsRun_take_of_ne (hi : 0 < i) (h : data[i - 1]? ≠ some backslash) (hle : i ≤ data.length) :
    bsRun (data.take i) = 0 := by
  obtain ⟨j, rfl⟩ : ∃ j, i = j + 1 := ⟨i - 1, by omega⟩
  have hget : data[j]? = some data[j] := getElem?_eq_getElem (by omega)
  rw [take_add_one, hget, Option.toList_some, bsRun_concat, if_neg]
  intro heq
  rw [Nat.add_sub_cancel, hget, heq] at h
  exact h rfl

theorem bsRun_le (xs : List UInt8) : bsRun xs ≤ xs.length := by
  rw [← @List.length_reverse _ xs]
  exact (takeWhile_sublist _).length_le

end Slices

variable {segs : List ChunkSeg} {eol : EolType} {x : UInt8} {pos : Nat}

section Rel

/-- Where the scan of a buffer stands: `c` are the bytes of the line at hand that came with earlier
buffers, and the line and the group are otherwise made of bytes of this one. -/
structure Pre (data : List UInt8) (f : Feed) (s : Scan) (c : List UInt8) : Prop where
  line : s.line = c ++ mid data f.lineStart f.i
  head : f.seg.lineHead = c.take 2
  trailing : f.seg.trailingBs % 2 = bsRun c % 2
  fresh : f.lineStart = 0 ∨ (c = [] ∧ data[f.lineStart - 1]? ≠ some backslash)
  group : segBytes f.seg.segs ++ mid data f.chunkStart f.i = s.group.flatten ++ s.line
  chunkStart_le : f.chunkStart ≤ f.lineStart
  lineStart_le : f.lineStart ≤ f.i
  i_le : f.i ≤ data.length
  rows : f.seg.rows = s.group.length
  total : f.seg.rowsTotal = s.lines.length
  first : f.seg.firstLineno = s.chunks.flatten.length + 1
  out : Cuts f.out s.chunks
  segs : ∀ seg ∈ f.seg.segs, seg.Fits ∧ seg.bytes ≠ []
  live : f.seg.eoc = false ∧ s.eoc = false

variable {data c : List UInt8} {f : Feed} {s : Scan} {rpc : Nat}

/-- The parity of the backslash run before a position of the line says whether it is escaped. -/
theorem Pre.parity (h : Pre data f s c) {pos : Nat} (hlo : f.lineStart ≤ pos) (hhi : pos ≤ data.length) :
    f.seg.bsParityEven data pos = !decide (Escaped (c ++ mid data f.lineStart pos)) := by
  have hlen : (mid data f.lineStart pos).length = pos - f.lineStart := by
    rw [mid, length_drop, length_take, Nat.min_eq_left hhi]
  have happ := bsRun_append c (mid data f.lineStart pos)
  have hle := bsRun_le (mid data f.lineStart pos)
  have htrail := h.trailing
  have hrun : bsRun (data.take pos) = bsRun (mid data f.lineStart pos) ∧
      (bsRun (data.take pos) = pos ↔ f.lineStart = 0 ∧
        bsRun (mid data f.lineStart pos) = (mid data f.lineStart pos).length) := by
    by_cases hzero : f.lineStart = 0
    · rw [hzero] at hlen ⊢
      have hmid : mid data 0 pos = data.take pos := rfl
      rw [hmid] at hlen ⊢
      omega
    · obtain ⟨-, hbyte⟩ := h.fresh.resolve_left hzero
      have hsplit : data.take f.lineStart ++ mid data f.lineStart pos = data.take pos :=
        mid_append (Nat.zero_le _) hlo
      have hprefix := bsRun_take_of_ne (Nat.pos_of_ne_zero hzero) hbyte (Nat.le_trans hlo hhi)
      have heq : bsRun (data.take pos) = bsRun (mid data f.lineStart pos) := by
        rw [← hsplit, bsRun_append]
        split_ifs <;> omega
      refine ⟨heq, ?_⟩
      constructor
      · omega
      · intro hfull
        exact absurd hfull.1 hzero
  obtain ⟨heq, hfull⟩ := hrun
  rw [Bool.eq_iff_iff]
  simp only [Segmentator.bsParityEven, decide_eq_true_eq, Bool.not_eq_true', decide_eq_false_iff_not]
  rw [Escaped]
  by_cases hrun : bsRun (data.take pos) = pos
  · obtain ⟨hzero, hall⟩ := hfull.mp hrun
    rw [if_pos hrun]
    rw [if_pos hall] at happ
    omega
  · rw [if_neg hrun]
    by_cases hall : bsRun (mid data f.lineStart pos) = (mid data f.lineStart pos).length
    · -- the line started in this buffer, so nothing is carried
      have hzero : f.lineStart ≠ 0 := fun hzero => hrun (hfull.mpr ⟨hzero, hall⟩)
      obtain ⟨rfl, -⟩ := h.fresh.resolve_left hzero
      rw [if_pos hall, bsRun_nil] at happ
      omega
    · rw [if_neg hall] at happ
      omega

theorem Pre.crEnd_at (h : Pre data f s c) (hlo : f.lineStart ≤ q) (hq : data[q]? = some x) :
    CrEnd (c ++ mid data f.lineStart (q + 1)) ↔ x = ret ∧ f.seg.bsParityEven data q = true := by
  have hlt := (List.getElem?_eq_some_iff.mp hq).1
  rw [mid_succ hlo hq, ← append_assoc, crEnd_concat, h.parity hlo (Nat.le_of_lt hlt)]
  simp

/-- The scan of a buffer at a row start or inside a row, outside an open carriage return. -/
structure Rel (rpc : Nat) (data : List UInt8) (f : Feed) (s : Scan) (c : List UInt8) : Prop extends
    Pre data f s c where
  eol : f.seg.eol = s.eol
  rowsPerChunk : f.seg.rowsPerChunk = rpc
  esc : s.eol = .unknown → f.seg.detectEsc = decide (Escaped s.line)
  pending : f.seg.pendingCr = false ∧ f.seg.prevEndedCr = false
  settled : s.eol = .unknown → ¬ CrEnd s.line
  edge : s.eol = .crnl → CrEnd c → data.head? ≠ some lf
  after : s.eol = .crnl → f.lineStart ≠ 0 → data[f.lineStart - 1]? ≠ some ret

/-- After the marker line: the chunks are the scan's groups. -/
structure Done (f : Feed) (s : Scan) : Prop where
  eol : f.seg.eol = s.eol
  segs : f.seg.segs = []
  out : Cuts f.out s.chunks
  eoc : f.seg.eoc = true ∧ s.eoc = true

theorem segBytes_push (segs) (a b : Nat) :
    segBytes (segs ++ [{ buf := data, start := a, stop := b }]) = segBytes segs ++ mid data a b := by
  simp [segBytes, ChunkSeg.bytes, mid]

theorem take_two_append (xs ys : List UInt8) : (xs.take 2 ++ ys).take 2 = (xs ++ ys).take 2 := by
  rcases xs with _ | ⟨x, _ | ⟨x', xs⟩⟩ <;> simp

theorem Pre.marker (h : Pre data f s c) :
    f.seg.lineFirst2 data f.lineStart f.i = [backslash, dot] ↔ isMarker s.line = true := by
  rw [Segmentator.lineFirst2, h.head, take_two_append, isMarker, decide_eq_true_eq, h.line]
  rfl

theorem cut_eq (h : segBytes f.seg.segs ≠ []) : f.cut = { f with
      seg := { f.seg with segs := [], rows := 0, firstLineno := f.seg.rowsTotal + 1 }
      out := f.out ++ [ChunkDesc.mk f.seg.firstLineno f.seg.segs]
      chunkStart := f.i } := by
  have hne : f.seg.segs ≠ [] := by
    intro hnil
    rw [hnil] at h
    exact h rfl
  have hcut : f.seg.cutChunk f.out = ({ f.seg with segs := [], rows := 0, firstLineno := f.seg.rowsTotal + 1 },
      f.out ++ [ChunkDesc.mk f.seg.firstLineno f.seg.segs]) := if_neg hne
  rw [Feed.cut, hcut]

/-- The chunks after a group of lines was cut off. -/
theorem out_concat (hout : Cuts out chunks) (hsegs : segBytes segs = group.flatten)
    (hfits : ∀ seg ∈ segs, seg.Fits) :
    Cuts (out ++ [ChunkDesc.mk (chunks.flatten.length + 1) segs]) (chunks ++ [group]) := by
  constructor
  · rw [map_append, hout.1, numbered_concat, map_singleton, ChunkDesc.view, ChunkDesc.bytes, hsegs, Nat.add_comm]
  · exact forall_mem_concat hout.2 hfits

theorem Pre.full (h : Pre data f s c) :
    segBytes f.seg.segs ++ mid data f.chunkStart f.i = (s.group ++ [s.line]).flatten := by
  rw [h.group, flatten_append, flatten_singleton]

/-- The chunk with the row that ends at `i`. -/
theorem Pre.cut_out (h : Pre data f s c) (hsegs : segBytes segs = (s.group ++ [s.line]).flatten)
    (hfits : ∀ seg ∈ segs, seg.Fits) :
    Cuts (f.out ++ [ChunkDesc.mk f.seg.firstLineno segs]) (s.chunks ++ [s.group ++ [s.line]]) := by
  rw [h.first]
  exact out_concat h.out hsegs hfits

theorem fits_push (hsegs : ∀ seg ∈ segs, seg.Fits) (hab : a ≤ b) (hb : b ≤ data.length) :
    ∀ seg ∈ segs ++ [{ buf := data, start := a, stop := b }], seg.Fits :=
  forall_mem_concat hsegs ⟨hab, hb⟩

section

variable (h : Pre data f s c)
include h

/-- The segments up to the end of the row at `i`. -/
theorem Pre.fits_push : ∀ seg ∈ f.seg.segs ++ [{ buf := data, start := f.chunkStart, stop := f.i }], seg.Fits :=
  CopySegmentator.fits_push (fun seg hseg => (h.segs seg hseg).1) (Nat.le_trans h.chunkStart_le h.lineStart_le)
    h.i_le

/-- The marker line ends the last chunk. -/
theorem Pre.boundary_marker (hne : s.line ≠ []) (heol : f.seg.eol = eol) (hmarker : isMarker s.line = true) :
    (f.rowBoundary data).2 = true ∧ Done (f.rowBoundary data).1 (s.close rpc eol s.line) := by
  have hfull := h.full
  have hline : (s.group ++ [s.line]).flatten ≠ [] := by simp [hne]
  rw [Feed.rowBoundary, Scan.close, if_pos (h.marker.mpr hmarker), if_pos hmarker]
  refine ⟨rfl, ?_⟩
  by_cases hlt : f.chunkStart < f.i
  · have hpush : f.markEoc.pushRest data = f.markEoc.push data f.i := if_pos hlt
    have hsegs : segBytes (f.markEoc.push data f.i).seg.segs = (s.group ++ [s.line]).flatten := by
      rw [← hfull]
      exact segBytes_push _ _ _
    rw [hpush, cut_eq (by rw [hsegs]; exact hline)]
    exact ⟨heol, rfl, h.cut_out hsegs h.fits_push, rfl, rfl⟩
  · have hpush : f.markEoc.pushRest data = f.markEoc := if_neg hlt
    have hi : f.chunkStart = f.i := by
      have := h.chunkStart_le
      have := h.lineStart_le
      omega
    have hsegs : segBytes f.markEoc.seg.segs = (s.group ++ [s.line]).flatten := by
      rw [hi, mid_self, append_nil] at hfull
      exact hfull
    rw [hpush, cut_eq (by rw [hsegs]; exact hline)]
    exact ⟨heol, rfl, h.cut_out hsegs (fun seg hseg => (h.segs seg hseg).1), rfl, rfl⟩

/-- A row in style `eol` ends at `i`. -/
structure RowEnd (rpc : Nat) (data : List UInt8) (f : Feed) (s : Scan) (eol : EolType) : Prop where
  rowsPerChunk : f.seg.rowsPerChunk = rpc
  byte : f.i = 0 ∨ data[f.i - 1]? ≠ some backslash
  line : s.line ≠ []
  style : f.seg.eol = eol
  known : eol ≠ .unknown
  pending : f.seg.pendingCr = false ∧ f.seg.prevEndedCr = false
  pair : eol = .crnl → f.i ≠ 0 → data[f.i - 1]? ≠ some ret

/-- A row boundary is the completion of the line. -/
theorem Pre.boundary (hrow : RowEnd rpc data f s eol) (hmarker : isMarker s.line = false) :
    (f.rowBoundary data).2 = false ∧ Rel rpc data (f.rowBoundary data).1 (s.close rpc eol s.line) [] := by
  have hfull := h.full
  have hline : (s.group ++ [s.line]).flatten ≠ [] := by simp [hrow.line]
  have hnot : isMarker s.line ≠ true := by simp [hmarker]
  have hrows : f.countRow.seg.rows = s.group.length + 1 := by rw [← h.rows]; rfl
  have htotal := h.total
  have hcount : Rel rpc data f.countRow ⟨eol, [], s.group ++ [s.line], s.chunks, false⟩ [] :=
    { h with
      line := by simp [Feed.countRow]
      head := rfl
      trailing := rfl
      fresh := hrow.byte.imp_right (fun hb => ⟨rfl, hb⟩)
      group := by simpa [Feed.countRow] using hfull
      chunkStart_le := Nat.le_trans h.chunkStart_le h.lineStart_le
      lineStart_le := Nat.le_refl _
      rows := by simp [hrows]
      total := by simp [Feed.countRow, htotal, Scan.lines, Nat.add_assoc]
      live := ⟨h.live.1, rfl⟩
      eol := hrow.style
      rowsPerChunk := hrow.rowsPerChunk
      esc := fun hu => absurd hu hrow.known
      pending := hrow.pending
      settled := fun hu => absurd hu hrow.known
      edge := fun _ hcr => absurd hcr not_crEnd_nil
      after := hrow.pair }
  rw [Feed.rowBoundary, Scan.close, if_neg (fun h' => hnot (h.marker.mp h')), hrow.rowsPerChunk, hrows]
  split_ifs with hcut
  · have hsegs := hfull
    rw [← segBytes_push] at hsegs
    refine ⟨rfl, ?_⟩
    simp only [Feed.countRow, Feed.push]
    rw [cut_eq (by rw [hsegs]; exact hline)]
    exact
      { hcount with
        line := by simp
        group := by simp [segBytes]
        chunkStart_le := Nat.le_refl _
        rows := rfl
        total := by simp [htotal, Scan.lines, Nat.add_assoc]
        first := by simp [htotal, Scan.lines, Nat.add_assoc]
        out := h.cut_out hsegs h.fits_push
        segs := by simp }
  · exact ⟨rfl, hcount⟩

/-- A row boundary, with the marker line or without. -/
theorem Pre.closed (hrow : RowEnd rpc data f s eol) :
    ((f.rowBoundary data).2 = true ∧ Done (f.rowBoundary data).1 (s.close rpc eol s.line)) ∨
      ((f.rowBoundary data).2 = false ∧ Rel rpc data (f.rowBoundary data).1 (s.close rpc eol s.line) []) := by
  cases hmarker : isMarker s.line with
  | true => exact .inl (h.boundary_marker hrow.line hrow.style hmarker)
  | false => exact .inr (h.boundary hrow hmarker)

/-- Bytes that end no row join the line. -/
theorem Pre.advance (hij : f.i ≤ j) (hj : j ≤ data.length) :
    Pre data { f with i := j } { s with line := s.line ++ mid data f.i j } c :=
  { h with
    line := by
      rw [h.line, append_assoc, mid_append h.lineStart_le hij]
    group := by
      have hgroup := h.group
      rw [← mid_append (Nat.le_trans h.chunkStart_le h.lineStart_le) hij, ← append_assoc, hgroup, append_assoc]
    lineStart_le := Nat.le_trans h.lineStart_le hij
    i_le := hj }

theorem Pre.next {b : UInt8} (hb : data[f.i]? = some b) :
    Pre data { f with i := f.i + 1 } { s with line := s.line ++ [b] } c := by
  have hlt := (List.getElem?_eq_some_iff.mp hb).1
  have hmid : mid data f.i (f.i + 1) = [b] := by
    rw [mid_succ (Nat.le_refl _) hb, mid_self, nil_append]
  have hadv := h.advance (le_succ f.i) hlt
  rw [hmid] at hadv
  exact hadv

end

end Rel

section ScanLemmas

variable {rpc : Nat} {s : Scan} {b : UInt8} {w : List UInt8}

theorem run_cons : s.run rpc (b :: w) = (s.step rpc b).run rpc w := rfl

theorem run_append : s.run rpc (v ++ w) = (s.run rpc v).run rpc w := foldl_append

theorem step_absorb (heoc : s.eoc = false) (hsettled : s.eol = .unknown → CrEnd s.line → b = lf) :
    s.step rpc b = s.absorb rpc b := by
  have hres : s.resolve rpc b = s := by
    apply if_neg
    rintro ⟨hu, hcr, hb⟩
    exact hb (hsettled hu hcr)
  rw [Scan.step, hres, if_neg (by simp [heoc])]

/-- A line feed behind an open carriage return. -/
theorem step_crnl (heoc : s.eoc = false) (hu : s.eol = .unknown) (hcr : CrEnd s.line) :
    s.step rpc lf = s.close rpc .crnl (s.line ++ [lf]) := by
  rw [step_absorb heoc (fun _ _ => rfl), Scan.absorb, if_pos hu, if_pos ⟨rfl, hcr.not_escaped⟩,
    Scan.styleAt, if_pos hcr]

theorem run_of_eoc (heoc : s.eoc = true) (hknown : s.eol ≠ .unknown) : s.run rpc w = s := by
  induction w with
  | nil => rfl
  | cons b w ih =>
    have hres : s.resolve rpc b = s := if_neg (fun h => hknown h.1)
    rw [run_cons, Scan.step, hres, if_pos heoc, ih]

/-- A carriage return that the next byte settles. -/
theorem run_resolve (hcr : CrEnd s.line) (hu : s.eol = .unknown) (hb : b ≠ lf) :
    s.run rpc (b :: w) = (s.close rpc .cr s.line).run rpc (b :: w) := by
  have hres : s.resolve rpc b = s.close rpc .cr s.line := if_pos ⟨hu, hcr, hb⟩
  have hres' : (s.close rpc .cr s.line).resolve rpc b = s.close rpc .cr s.line := by
    apply if_neg
    rintro ⟨hu', -⟩
    rw [Scan.close_eol] at hu'
    cases hu'
  rw [run_cons, run_cons, Scan.step, Scan.step, hres, hres']

theorem run_plain (heoc : s.eoc = false) (hknown : s.eol ≠ .unknown)
    (hw : ∀ b ∈ w, ∀ p, ¬ EndsAt s.eol p b) : s.run rpc w = { s with line := s.line ++ w } := by
  induction w generalizing s with
  | nil =>
    rw [append_nil]
    rfl
  | cons b w ih =>
    have hstep : s.step rpc b = { s with line := s.line ++ [b] } := by
      rw [step_absorb heoc (fun hu => absurd hu hknown), Scan.absorb, if_neg hknown,
        if_neg (hw b mem_cons_self s.line)]
    have hrest := @ih { s with line := s.line ++ [b] } heoc hknown (fun b' hb' => hw b' (mem_cons_of_mem b hb'))
    rw [run_cons, hstep, hrest, append_assoc]
    rfl

end ScanLemmas

section Loop

/-- The scan loop reached the end of the buffer; a carriage return may be open. -/
structure Ended (rpc : Nat) (data : List UInt8) (f : Feed) (s : Scan) (c : List UInt8) : Prop extends
    Pre data { f with i := data.length } s c where
  eol : f.seg.eol = s.eol
  rowsPerChunk : f.seg.rowsPerChunk = rpc
  esc : s.eol = .unknown → f.seg.detectEsc = decide (Escaped s.line)
  pending : f.seg.pendingCr = decide (s.eol = .unknown ∧ CrEnd s.line)
  after : s.eol = .crnl → f.lineStart ≠ 0 → data[f.lineStart - 1]? ≠ some ret

/-- The result of scanning a buffer, against the scan of its bytes. -/
def Scanned (rpc : Nat) (data : List UInt8) (s : Scan) (r : Feed × Bool) : Prop :=
  (r.2 = true ∧ Done r.1 s) ∨ (r.2 = false ∧ ∃ c, Ended rpc data r.1 s c)

variable {rpc fuel : Nat} {data c : List UInt8} {f : Feed} {s : Scan} {b : UInt8}

theorem Rel.ended (h : Rel rpc data f s c) (hi : f.i = data.length) : Ended rpc data f s c :=
  { h with
    toPre := by
      rw [← hi]
      exact h.toPre
    pending := by
      rw [h.pending.1]
      exact (decide_eq_false (fun hp => h.settled hp.1 hp.2)).symm }

/-- The loop goes on from `f` as the scan does. -/
def Continues (rpc : Nat) (data : List UInt8) (fuel : Nat) (i : Nat) : Prop :=
  ∀ (f : Feed) (s : Scan) (c : List UInt8), Rel rpc data f s c → f.i = i →
    Scanned rpc data (s.run rpc (data.drop i)) (Feed.loop data fuel f)

theorem rowBoundary_i : (f.rowBoundary data).1.i = f.i := by
  rw [Feed.rowBoundary]
  split_ifs
  · rw [Feed.pushRest]
    split_ifs <;> rfl
  · rfl
  · rfl

/-- A row boundary inside the loop. -/
theorem Pre.after_boundary (h : Pre data f s c) (hnext : Continues rpc data fuel f.i)
    (hrow : RowEnd rpc data f s eol) :
    Scanned rpc data ((s.close rpc eol s.line).run rpc (data.drop f.i))
      (Feed.after (Feed.loop data fuel) (f.boundary data)) := by
  rcases h.closed hrow with ⟨hflag, hdone⟩ | ⟨hflag, hrel⟩
  · have hctl : f.boundary data = ((f.rowBoundary data).1, .marker) := by
      rw [Feed.boundary, if_pos hflag]
    rw [hctl, run_of_eoc hdone.eoc.2 (by simpa using hrow.known)]
    exact .inl ⟨rfl, hdone⟩
  · have hctl : f.boundary data = ((f.rowBoundary data).1, .next) := by
      rw [Feed.boundary, if_neg (by simp [hflag])]
    rw [hctl]
    exact hnext _ _ _ hrel rowBoundary_i

theorem drop_cons (hb : data[f.i]? = some b) : data.drop f.i = b :: data.drop (f.i + 1) := by
  obtain ⟨hlt, rfl⟩ := List.getElem?_eq_some_iff.mp hb
  exact drop_eq_getElem_cons hlt

/-- A byte of the detect phase that does not end the line. -/
theorem Rel.detect_skip (h : Rel rpc data f s c) (hu : s.eol = .unknown) (hb : data[f.i]? = some b)
    (hend : ¬ (b = lf ∧ ¬ Escaped s.line)) (hret : ¬ (b = ret ∧ ¬ Escaped s.line)) (esc : Bool)
    (hesc : esc = decide (b = backslash ∧ ¬ Escaped s.line)) :
    s.step rpc b = { s with line := s.line ++ [b] } ∧
      Rel rpc data { f with seg := { f.seg with detectEsc := esc }, i := f.i + 1 }
        { s with line := s.line ++ [b] } c := by
  constructor
  · rw [step_absorb h.live.2 (fun hu hcr => absurd hcr (h.settled hu)), Scan.absorb, if_pos hu, if_neg hend]
  · exact
      { h.toPre.next hb, h with
        esc := by
          intro _
          rw [hesc]
          exact decide_eq_decide.mpr escaped_concat.symm
        settled := fun _ hcr => hret (crEnd_concat.mp hcr) }

theorem Pre.setEol (h : Pre data f s c) (eol) : Pre data (f.setEol eol) s c := { h with }

theorem Pre.setPending (h : Pre data f s c) (flag : Bool) :
    Pre data { f with seg := { f.seg with pendingCr := flag } } s c :=
  { h with }

theorem Pre.setPrev (h : Pre data f s c) (flag : Bool) :
    Pre data { f with seg := { f.seg with prevEndedCr := flag } } s c :=
  { h with }

theorem get_pred (hb : data[f.i]? = some b) {x : UInt8} (hx : b ≠ x) : data[f.i + 1 - 1]? ≠ some x := by
  rw [Nat.add_sub_cancel, hb]
  exact fun heq => hx (Option.some.inj heq)

theorem loop_end (hi : data[f.i]? = none) : Feed.loop data fuel f = (f, false) := by
  cases fuel with
  | zero => rfl
  | succ => rw [Feed.loop, hi]

/-- A carriage return of the detect phase. -/
theorem Rel.detect_ret (h : Rel rpc data f s c) (hu : s.eol = .unknown) (hb : data[f.i]? = some ret)
    (hplain : ¬ Escaped s.line) (hesc : f.seg.detectEsc = false)
    (hnext : ∀ j, f.i < j → Continues rpc data fuel j) :
    Scanned rpc data (({ s with line := s.line ++ [ret] } : Scan).run rpc (data.drop (f.i + 1)))
      (Feed.after (Feed.loop data fuel) (f.detect data ret)) := by
  have hcr : CrEnd (s.line ++ [ret]) := crEnd_concat.mpr ⟨rfl, hplain⟩
  have hpre := h.toPre.next hb
  rw [Feed.detect, if_neg (by simp [hesc]), if_neg (by decide), if_neg (by decide), if_pos rfl]
  cases hc : data[f.i + 1]? with
  | none =>
    have hlen : f.i + 1 = data.length := Nat.le_antisymm hpre.i_le (List.getElem?_eq_none_iff.mp hc)
    rw [hlen, drop_length]
    have hloop := @loop_end fuel data { f with seg := { f.seg with pendingCr := true }, i := data.length } (by simp)
    right
    simp only [Feed.after, hloop]
    rw [hlen] at hpre
    refine ⟨trivial, c, ?_⟩
    exact
      { hpre, h with
        esc := by
          intro _
          rw [hesc]
          exact (decide_eq_false hcr.not_escaped).symm
        pending := (decide_eq_true ⟨hu, hcr⟩).symm }
  | some c' =>
    have hdrop : data.drop (f.i + 1) = c' :: data.drop (f.i + 2) := @drop_cons data { f with i := f.i + 1 } c' hc
    obtain rfl | hlf := eq_or_ne c' lf
    · have hstep := @step_crnl rpc { s with line := s.line ++ [ret] } h.live.2 hu hcr
      have hpre' := @Pre.next _ _ _ _ (hpre.setEol .crnl) lf hc
      rw [hdrop, run_cons, hstep]
      exact hpre'.after_boundary (hnext (f.i + 2) (by omega)) ⟨h.rowsPerChunk,
        .inr (@get_pred data { f with i := f.i + 1 } lf hc backslash (by decide)), by simp, rfl, by decide,
        h.pending, fun _ _ => @get_pred data { f with i := f.i + 1 } lf hc ret (by decide)⟩
    · rw [hdrop, @run_resolve rpc { s with line := s.line ++ [ret] } _ _ hcr hu hlf, ← hdrop]
      simp only [hlf]
      exact (hpre.setEol .cr).after_boundary (hnext (f.i + 1) (lt_succ_self _)) ⟨h.rowsPerChunk,
        .inr (get_pred hb (by decide)), by simp, rfl, by decide, h.pending, nofun⟩

/-- The detect phase, one byte. -/
theorem Rel.detect (h : Rel rpc data f s c) (hu : s.eol = .unknown) (hb : data[f.i]? = some b)
    (hnext : ∀ j, f.i < j → Continues rpc data fuel j) :
    Scanned rpc data (s.run rpc (data.drop f.i)) (Feed.after (Feed.loop data fuel) (f.detect data b)) := by
  have hesc := h.esc hu
  rw [drop_cons hb, run_cons]
  by_cases he : f.seg.detectEsc = true
  · -- the byte is escaped
    have hescaped : Escaped s.line := by simpa [he] using hesc
    obtain ⟨hstep, hrel⟩ := h.detect_skip hu hb (fun hn => hn.2 hescaped)
      (fun hn => hn.2 hescaped) false (by simp [hescaped])
    rw [Feed.detect, if_pos he, hstep]
    exact hnext (f.i + 1) (lt_succ_self _) _ _ _ hrel rfl
  · have hplain : ¬ Escaped s.line := by
      intro hescaped
      rw [hesc] at he
      exact he (decide_eq_true hescaped)
    have hfalse : f.seg.detectEsc = false := by simpa using he
    obtain rfl | hret := eq_or_ne b ret
    · have hstep : s.step rpc ret = { s with line := s.line ++ [ret] } := by
        rw [step_absorb h.live.2 (fun hu hcr => absurd hcr (h.settled hu)), Scan.absorb, if_pos hu,
          if_neg (fun hn => absurd hn.1 (by decide))]
      rw [hstep]
      exact h.detect_ret hu hb hplain hfalse hnext
    · rw [Feed.detect, if_neg he]
      by_cases hback : b = backslash
      · obtain ⟨hstep, hrel⟩ := h.detect_skip hu hb (by subst hback; simp [backslash, lf])
          (fun hn => hret hn.1) true (by simp [hback, hplain])
        rw [if_pos hback, hstep]
        exact hnext (f.i + 1) (lt_succ_self _) _ _ _ hrel rfl
      · rw [if_neg hback]
        obtain rfl | hlf := eq_or_ne b lf
        · have hstep : s.step rpc lf = s.close rpc .nl (s.line ++ [lf]) := by
            rw [step_absorb h.live.2 (fun _ _ => rfl), Scan.absorb, if_pos hu, if_pos ⟨rfl, hplain⟩,
              Scan.styleAt, if_neg (h.settled hu)]
          rw [hstep]
          exact ((h.toPre.setEol .nl).next hb).after_boundary (hnext (f.i + 1) (lt_succ_self _))
            ⟨h.rowsPerChunk, .inr (get_pred hb (by decide)), by simp, rfl, by decide, h.pending, by simp⟩
        · obtain ⟨hstep, hrel⟩ := h.detect_skip hu hb (fun hn => hlf hn.1)
            (fun hn => hret hn.1) false (by simp [hback])
          rw [if_neg hlf, if_neg hret, hstep, ← hfalse] at *
          exact hnext (f.i + 1) (lt_succ_self _) _ _ _ hrel rfl

theorem memchr_none (h : f.memchr data x = none) : ∀ b ∈ data.drop f.i, b ≠ x := by
  intro b hb
  have := findIdx?_eq_none_iff.mp h b hb
  simpa using this

theorem memchr_some (h : f.memchr data x = some j) :
    data[f.i + j]? = some x ∧ ∀ b ∈ mid data f.i (f.i + j), b ≠ x := by
  obtain ⟨hlt, hx, hbefore⟩ := findIdx?_eq_some_iff_getElem.mp h
  have hlen : f.i + j < data.length := by
    rw [length_drop] at hlt
    omega
  constructor
  · rw [getElem?_eq_getElem hlen]
    simpa using hx
  · intro b hb
    rw [mid_eq] at hb
    obtain ⟨k, hk, rfl⟩ := mem_iff_getElem.mp hb
    rw [length_take] at hk
    have hne := hbefore k (by omega)
    simpa using hne

section

variable (h : Rel rpc data f s c)
include h

/-- The scan for a byte in a known style: only at that byte can a line end. -/
theorem Rel.scanNl (hknown : s.eol ≠ .unknown)
    (hother : ∀ b p, b ≠ x → ¬ EndsAt s.eol p b) (hat : ∀ pos, f.i ≤ pos → data[pos]? = some x →
      boundaryAt pos = decide (EndsAt s.eol (s.line ++ mid data f.i pos) x)) (hback : x ≠ backslash)
    (hret : s.eol = .crnl → x ≠ ret) (hnext : ∀ j, f.i < j → Continues rpc data fuel j) :
    Scanned rpc data (s.run rpc (data.drop f.i))
      (Feed.after (Feed.loop data fuel) (f.scanNl data boundaryAt x)) := by
  rw [Feed.scanNl]
  cases hmem : f.memchr data x with
  | none =>
    have hrun := @run_plain rpc s (data.drop f.i) h.live.2 hknown (fun b hb p => hother b p (memchr_none hmem b hb))
    have hpre := h.toPre.advance h.i_le (Nat.le_refl data.length)
    rw [mid_to_end] at hpre
    have hpending : f.seg.pendingCr = decide (s.eol = .unknown ∧ CrEnd (s.line ++ data.drop f.i)) := by
      rw [h.pending.1]
      exact (decide_eq_false (fun hp => hknown hp.1)).symm
    rw [hrun]
    exact .inr ⟨rfl, c, hpre, h.eol, h.rowsPerChunk, fun hu => absurd hu hknown, hpending, h.after⟩
  | some j =>
    obtain ⟨hx, hbefore⟩ := memchr_some hmem
    have hlt := (List.getElem?_eq_some_iff.mp hx).1
    have hpre := h.toPre.advance (Nat.le_add_right f.i j) (Nat.le_of_lt hlt)
    have hrun := @run_plain rpc s (mid data f.i (f.i + j)) h.live.2 hknown (fun b hb p => hother b p (hbefore b hb))
    have hsplit : data.drop f.i = mid data f.i (f.i + j) ++ x :: data.drop (f.i + j + 1) := by
      have hdrop := @drop_cons data { f with i := f.i + j } x hx
      rw [← hdrop, ← mid_to_end, ← mid_to_end, mid_append (Nat.le_add_right _ _) (Nat.le_of_lt hlt)]
    have happ : s.run rpc (data.drop f.i) =
        (({ s with line := s.line ++ mid data f.i (f.i + j) } : Scan).step rpc x).run rpc
          (data.drop (f.i + j + 1)) := by
      rw [hsplit, run_append, hrun, run_cons]
    have hstep := @step_absorb rpc { s with line := s.line ++ mid data f.i (f.i + j) } x h.live.2
      (fun hu => absurd hu hknown)
    rw [happ, hstep]
    simp only [hat (f.i + j) (Nat.le_add_right _ _) hx]
    rw [Scan.absorb, if_neg hknown]
    by_cases hend : EndsAt s.eol (s.line ++ mid data f.i (f.i + j)) x
    · rw [if_pos hend, if_pos (decide_eq_true hend)]
      exact (hpre.next hx).after_boundary (hnext (f.i + j + 1) (by omega)) ⟨h.rowsPerChunk,
        .inr (@get_pred data { f with i := f.i + j } x hx backslash hback), by simp, h.eol, hknown, h.pending,
        fun hcrnl _ => get_pred hx (hret hcrnl)⟩
    · rw [if_neg hend, if_neg (by simp [hend])]
      refine hnext (f.i + j + 1) (by omega) _ _ c ?_ rfl
      exact
        { h with
          toPre := hpre.next hx, esc := fun hu => absurd hu hknown, settled := fun hu => absurd hu hknown }

theorem Rel.line_mid (hpos : f.i ≤ pos) : s.line ++ mid data f.i pos = c ++ mid data f.lineStart pos := by
  rw [h.line, append_assoc, mid_append h.lineStart_le hpos]

theorem Rel.parity_at (hpos : f.i ≤ pos) (hx : data[pos]? = some x) :
    f.seg.bsParityEven data pos = decide (x = x ∧ ¬ Escaped (s.line ++ mid data f.i pos)) := by
  have hlt := (List.getElem?_eq_some_iff.mp hx).1
  rw [h.line_mid hpos, h.toPre.parity (Nat.le_trans h.lineStart_le hpos) (Nat.le_of_lt hlt)]
  simp

/-- The carriage return of a pair stands in this buffer: one at the end of the buffer before was
settled first, and a row never starts behind a carriage return. -/
theorem Rel.pair_at (hcrnl : s.eol = .crnl) (hpos : f.i ≤ pos) (hx : data[pos]? = some lf) :
    f.pairAt data pos = decide (lf = lf ∧ CrEnd (s.line ++ mid data f.i pos)) := by
  have hlt := (List.getElem?_eq_some_iff.mp hx).1
  have hlo := Nat.le_trans h.lineStart_le hpos
  rw [h.line_mid hpos, Feed.pairAt]
  rcases Nat.eq_or_lt_of_le hlo with heq | hlt'
  · -- the line feed is the first byte of the line in this buffer
    rw [← heq, mid_self, append_nil]
    have hno : ¬ CrEnd c := by
      intro hcr
      rcases h.fresh with hzero | ⟨rfl, -⟩
      · apply h.edge hcrnl hcr
        rw [← heq, hzero] at hx
        rw [head?_eq_getElem?]
        exact hx
      · exact not_crEnd_nil hcr
    have hright : decide (lf = lf ∧ CrEnd c) = false := decide_eq_false (fun hn => hno hn.2)
    rw [hright]
    by_cases hzero : f.lineStart = 0
    · simp [hzero]
    · have hafter := h.after hcrnl hzero
      simp [hafter]
  · obtain ⟨q, rfl⟩ : ∃ q, pos = q + 1 := ⟨pos - 1, by omega⟩
    have hq : data[q]? = some data[q] := getElem?_eq_getElem (by omega)
    have hcr := h.toPre.crEnd_at (by omega) hq
    simp [hq, hcr]

end

/-- The scan loop does to a buffer what the scan does to its bytes. -/
theorem loop_scanned : ∀ (fuel : Nat) (i : Nat), data.length - i ≤ fuel → Continues rpc data fuel i := by
  intro fuel
  induction fuel with
  | zero =>
    intro i hi f s c h heq
    have hend : f.i = data.length := Nat.le_antisymm h.i_le (by omega)
    rw [← heq, hend, drop_length]
    exact .inr ⟨rfl, c, h.ended hend⟩
  | succ fuel ih =>
    intro i hi f s c h heq
    subst heq
    have hnext : ∀ j, f.i < j → Continues rpc data fuel j := fun j hj => ih j (by omega)
    cases hb : data[f.i]? with
    | none =>
      have hend : f.i = data.length := Nat.le_antisymm h.i_le (List.getElem?_eq_none_iff.mp hb)
      rw [loop_end hb, hend, drop_length]
      exact .inr ⟨rfl, c, h.ended hend⟩
    | some b =>
      rw [Feed.loop, hb]
      simp only [Feed.round, h.eol]
      cases heol : s.eol with
      | unknown => exact h.detect heol hb hnext
      | nl | cr =>
        apply h.scanNl (by rw [heol]; decide)
        · intro b p hne hend
          rw [heol] at hend
          exact hne hend.1
        · intro pos hpos hx
          rw [heol]
          exact h.parity_at hpos hx
        · decide
        · intro hcrnl
          rw [heol] at hcrnl
          cases hcrnl
        · exact hnext
      | crnl =>
        apply h.scanNl (by rw [heol]; decide)
        · intro b p hne hend
          rw [heol] at hend
          exact hne hend.1
        · intro pos hpos hx
          rw [heol]
          exact h.pair_at heol hpos hx
        · decide
        · exact fun _ => by decide
        · exact hnext

end Loop

section Feeding

/-- The segmentator between two buffers, against the scan of the bytes so far. -/
structure Kept (rpc : Nat) (seg : Segmentator) (out : List ChunkDesc) (s : Scan) : Prop where
  eol : seg.eol = s.eol
  rowsPerChunk : seg.rowsPerChunk = rpc
  tail : segBytes seg.segs = s.tail
  segs : ∀ x ∈ seg.segs, x.Fits ∧ x.bytes ≠ []
  head : seg.lineHead = s.line.take 2
  trailing : seg.trailingBs % 2 = bsRun s.line % 2
  rows : seg.rows = s.group.length
  total : seg.rowsTotal = s.lines.length
  first : seg.firstLineno = s.chunks.flatten.length + 1
  out : Cuts out s.chunks
  live : seg.eoc = false ∧ s.eoc = false
  esc : s.eol = .unknown → seg.detectEsc = decide (Escaped s.line)
  pending : seg.pendingCr = decide (s.eol = .unknown ∧ CrEnd s.line)
  prev : seg.prevEndedCr = decide (s.eol = .crnl ∧ CrEnd s.line)

variable {rpc : Nat} {data c : List UInt8} {f : Feed} {s : Scan} {seg : Segmentator} {out : List ChunkDesc}

section

variable (h : Ended rpc data f s c)
include h

/-- The rest of a buffer joins the chunk. -/
theorem Ended.carry_segs :
    segBytes (f.carry data).seg.segs = s.tail ∧ ∀ x ∈ (f.carry data).seg.segs, x.Fits ∧ x.bytes ≠ [] := by
  have hgroup := h.group
  by_cases hlt : f.chunkStart < data.length
  · simp only [Feed.carry, if_pos hlt, Feed.push]
    constructor
    · rw [segBytes_push, hgroup]
      rfl
    · exact forall_mem_concat h.segs ⟨⟨Nat.le_of_lt hlt, Nat.le_refl _⟩, mid_ne_nil hlt (Nat.le_refl _)⟩
  · have hend : f.chunkStart = data.length :=
      Nat.le_antisymm (Nat.le_trans h.chunkStart_le h.lineStart_le) (Nat.le_of_not_lt hlt)
    simp only [Feed.carry, if_neg hlt]
    refine ⟨?_, h.segs⟩
    rw [hend, mid_self, append_nil] at hgroup
    exact hgroup

theorem Ended.line_eq : s.line = c ++ data.drop f.lineStart := by
  rw [← mid_to_end]
  exact h.line

theorem Ended.carry_trailing : (f.carry data).seg.trailingBs % 2 = bsRun s.line % 2 := by
  have hparity := h.toPre.parity h.lineStart_le (Nat.le_refl data.length)
  simp only [mid_to_end, ← h.line_eq, Segmentator.bsParityEven, take_length] at hparity
  rw [Bool.eq_iff_iff] at hparity
  simp only [decide_eq_true_eq, Bool.not_eq_true', decide_eq_false_iff_not] at hparity
  rw [Escaped] at hparity
  simp only [Feed.carry]
  omega

theorem Ended.carry_prev (hdata : data ≠ []) :
    (f.carry data).seg.prevEndedCr = decide (s.eol = .crnl ∧ CrEnd s.line) := by
  have hpos : 0 < data.length := length_pos_iff.mpr hdata
  have hlast : data.getLast? = some data[data.length - 1] := by
    rw [getLast?_eq_getElem?, getElem?_eq_getElem (by omega)]
  simp only [Feed.carry, h.eol]
  by_cases hcrnl : s.eol = .crnl
  · rcases Nat.eq_or_lt_of_le h.lineStart_le with heq | hlt
    · -- a row ended with the buffer
      simp only at heq
      have hne : f.lineStart ≠ 0 := by omega
      have hline : s.line = [] := by
        rw [h.line_eq, heq, drop_length, append_nil]
        exact (h.fresh.resolve_left hne).1
      have hafter := h.after hcrnl hne
      rw [heq, getElem?_eq_getElem (by omega)] at hafter
      have hno : data[data.length - 1] ≠ ret := fun hr => hafter (by rw [hr])
      rw [hline, hlast]
      simp [hno]
    · have hcr := h.toPre.crEnd_at (le_sub_one_of_lt hlt) (getElem?_eq_getElem (sub_one_lt_of_lt hpos))
      rw [Nat.sub_add_cancel hpos, mid_to_end, ← h.line_eq] at hcr
      simp [hcrnl, hlast, hcr]
  · simp [hcrnl]

theorem Ended.carry (hdata : data ≠ []) : Kept rpc (f.carry data).seg (f.carry data).out s :=
  { h with
    tail := h.carry_segs.1
    segs := h.carry_segs.2
    head := by
      have hlen : 2 - (c.take 2).length = 2 - c.length := by
        rw [length_take]
        omega
      have hhead := h.head
      simp only [Feed.carry]
      rw [hhead, hlen, h.line_eq, take_append]
    trailing := h.carry_trailing
    prev := h.carry_prev hdata }

end

theorem Kept.enter_pre (h : Kept rpc seg out s) : Pre data (Feed.enter seg out) s s.line :=
  { h with
    line := by simp [Feed.enter]
    fresh := .inl rfl
    group := by
      have htail := h.tail
      simp [Feed.enter, htail, Scan.tail]
    chunkStart_le := Nat.le_refl _
    lineStart_le := Nat.le_refl _
    i_le := Nat.zero_le _ }

/-- What is open from the buffer before is settled: the marker line closed, or the scan loop takes
over. -/
def Resumed (rpc : Nat) (data : List UInt8) (s : Scan) (r : Feed × Bool) : Prop :=
  (r.2 = true ∧ Done r.1 (s.run rpc data)) ∨
    (r.2 = false ∧ ∃ s' c, Rel rpc data r.1.clearPrevCr s' c ∧ s'.run rpc (data.drop r.1.i) = s.run rpc data)

theorem Pre.resumed (h : Pre data f s c) (hrow : RowEnd rpc data f s eol)
    (hrun : (s.close rpc eol s.line).run rpc (data.drop f.i) = t.run rpc data) :
    Resumed rpc data t (f.rowBoundary data) := by
  rcases h.closed hrow with ⟨hflag, hdone⟩ | ⟨hflag, hrel⟩
  · rw [run_of_eoc hdone.eoc.2 (by simpa using hrow.known)] at hrun
    rw [hrun] at hdone
    exact .inl ⟨hflag, hdone⟩
  · refine .inr ⟨hflag, s.close rpc eol s.line, [], ?_, ?_⟩
    · have hclear : (f.rowBoundary data).1.clearPrevCr = (f.rowBoundary data).1 := by
        rw [Feed.clearPrevCr, ← hrel.pending.2]
      rw [hclear]
      exact hrel
    · rw [rowBoundary_i]
      exact hrun

theorem get_first (hx : b ≠ x) : (b :: rest)[0 + 1 - 1]? ≠ some x := fun heq => hx (Option.some.inj heq)

section

variable (h : Kept rpc seg out s)
include h

theorem Kept.resume_pending (hdata : data ≠ []) (hu : s.eol = .unknown)
    (hcr : CrEnd s.line) : Resumed rpc data s ((Feed.enter seg out).resume data) := by
  obtain ⟨b, rest, rfl⟩ := exists_cons_of_ne_nil hdata
  have hpend : (Feed.enter seg out).seg.pendingCr = true := h.pending.trans (decide_eq_true ⟨hu, hcr⟩)
  have hprev : seg.prevEndedCr = false := by
    rw [h.prev]
    exact decide_eq_false (fun hp => by rw [hu] at hp; cases hp.1)
  have hpre := @Kept.enter_pre rpc (b :: rest) s seg out h
  have hne : s.line ≠ [] := by
    intro hnil
    rw [hnil] at hcr
    exact not_crEnd_nil hcr
  rw [Feed.resume, if_pos hpend, Feed.resumeCr]
  obtain rfl | hb := eq_or_ne b lf
  · have hstep := @step_crnl rpc s h.live.2 hu hcr
    have hnext := (((hpre.setEol .crnl).setPending false).next (b := lf) rfl)
    exact hnext.resumed ⟨h.rowsPerChunk, .inr (get_first (by decide)), by simp, (rfl : _ = EolType.crnl),
      by decide, ⟨rfl, hprev⟩, fun _ _ => get_first (by decide)⟩ (by rw [run_cons, hstep]; rfl)
  · rw [if_neg (by simpa using hb)]
    exact ((hpre.setEol .cr).setPending false).resumed ⟨h.rowsPerChunk, .inl rfl, hne,
      (rfl : _ = EolType.cr), by decide, ⟨rfl, hprev⟩, nofun⟩ (run_resolve hcr hu hb).symm

theorem Kept.resume_pair (hcrnl : s.eol = .crnl) (hcr : CrEnd s.line)
    (hhead : data.head? = some lf) : Resumed rpc data s ((Feed.enter seg out).resume data) := by
  have hpend : seg.pendingCr = false := by
    rw [h.pending]
    exact decide_eq_false (fun hp => by rw [hcrnl] at hp; cases hp.1)
  have hprev : seg.prevEndedCr = true := by
    rw [h.prev]
    exact decide_eq_true ⟨hcrnl, hcr⟩
  obtain ⟨rest, rfl⟩ : ∃ rest, data = lf :: rest := by
    cases data with
    | nil => cases hhead
    | cons b rest =>
      cases hhead
      exact ⟨rest, rfl⟩
  have hpre := @Kept.enter_pre rpc (lf :: rest) s seg out h
  have hstep : s.step rpc lf = s.close rpc .crnl (s.line ++ [lf]) := by
    rw [step_absorb h.live.2 (fun _ _ => rfl), Scan.absorb, hcrnl, if_neg (by decide), if_pos ⟨rfl, hcr⟩]
  have hnext := ((hpre.setPrev false).next (b := lf) rfl)
  rw [Feed.resume, if_neg (by simp [Feed.enter, hpend]), if_pos (by simp [Feed.enter, hprev, h.eol, hcrnl])]
  exact hnext.resumed ⟨h.rowsPerChunk, .inr (get_first (by decide)), by simp, h.eol.trans hcrnl, by decide,
    ⟨hpend, rfl⟩, fun _ _ => get_first (by decide)⟩ (by rw [run_cons, hstep]; rfl)

/-- Nothing is open. -/
theorem Kept.resume_settled (hu : s.eol = .unknown → ¬ CrEnd s.line)
    (hpair : s.eol = .crnl → CrEnd s.line → data.head? ≠ some lf) :
    Resumed rpc data s ((Feed.enter seg out).resume data) := by
  have hpend : seg.pendingCr = false := by
    rw [h.pending]
    exact decide_eq_false (fun hp => hu hp.1 hp.2)
  have hskip : ¬ ((Feed.enter seg out).seg.prevEndedCr && (Feed.enter seg out).seg.eol = .crnl &&
      data.head? = some lf) = true := by
    simp only [Feed.enter, h.prev, Bool.and_eq_true, decide_eq_true_eq]
    rintro ⟨⟨⟨hcrnl, hcr⟩, -⟩, hhead⟩
    exact hpair hcrnl hcr hhead
  have hpre := @Kept.enter_pre rpc data s seg out h
  rw [Feed.resume, if_neg (by simp [Feed.enter, hpend]), if_neg hskip]
  refine .inr ⟨rfl, s, s.line, ?_, rfl⟩
  exact
    { h with
      toPre := hpre.setPrev false, pending := ⟨hpend, rfl⟩, settled := hu, edge := hpair, after := fun _ hne => absurd rfl hne }

theorem Kept.resume (hdata : data ≠ []) : Resumed rpc data s ((Feed.enter seg out).resume data) := by
  by_cases hu : s.eol = .unknown ∧ CrEnd s.line
  · exact h.resume_pending hdata hu.1 hu.2
  · by_cases hp : s.eol = .crnl ∧ CrEnd s.line ∧ data.head? = some lf
    · exact h.resume_pair hp.1 hp.2.1 hp.2.2
    · exact h.resume_settled (fun h₁ h₂ => hu ⟨h₁, h₂⟩) (fun h₁ h₂ h₃ => hp ⟨h₁, h₂, h₃⟩)

/-- The segmentator stands for the scan, or the marker line closed the last chunk. -/
def Fed (rpc : Nat) (seg : Segmentator) (out : List ChunkDesc) (s : Scan) : Prop :=
  (seg.eoc = true ∧ seg.segs = [] ∧ seg.eol = s.eol ∧ s.eoc = true ∧ Cuts out s.chunks) ∨ Kept rpc seg out s

theorem Kept.feed (hdata : data ≠ []) : Fed rpc (seg.feed data out).1 (seg.feed data out).2.1 (s.run rpc data) := by
  rw [Segmentator.feed]
  rcases Kept.resume h hdata with ⟨hflag, hdone⟩ | ⟨hflag, s', c, hrel, hrun⟩
  · rcases hr : (Feed.enter seg out).resume data with ⟨f, flag⟩
    rw [hr] at hflag hdone
    cases hflag
    exact .inl ⟨hdone.eoc.1, hdone.segs, hdone.eol, hdone.eoc.2, hdone.out⟩
  · rcases hr : (Feed.enter seg out).resume data with ⟨f, flag⟩
    rw [hr] at hflag hrel hrun
    cases hflag
    have hloop := loop_scanned data.length f.clearPrevCr.i (sub_le _ _) _ _ _ hrel rfl
    rcases hl : Feed.loop data data.length f.clearPrevCr with ⟨f', flag⟩
    have hi : f.clearPrevCr.i = f.i := rfl
    rw [hl, hi, hrun] at hloop
    simp only
    rw [hl]
    rcases hloop with ⟨hflag, hdone⟩ | ⟨hflag, c', hended⟩
    · cases hflag
      exact .inl ⟨hdone.eoc.1, hdone.segs, hdone.eol, hdone.eoc.2, hdone.out⟩
    · cases hflag
      exact .inr (hended.carry hdata)

end

theorem new_kept : Kept rpc (Segmentator.new rpc) [] Scan.start where
  eol := rfl
  rowsPerChunk := rfl
  tail := rfl
  segs := by simp [Segmentator.new]
  head := rfl
  trailing := rfl
  rows := rfl
  total := rfl
  first := rfl
  out := ⟨rfl, by simp⟩
  live := ⟨rfl, rfl⟩
  esc := fun _ => rfl
  pending := by simp [Scan.start, Segmentator.new]
  prev := by simp [Scan.start, Segmentator.new]

/-- A marker line ends the scan. -/
theorem Fed.feedAll {bufs : List (List UInt8)} {input : List UInt8} (hrpc : 1 ≤ rpc)
    (h : Fed rpc seg out (Scan.start.run rpc input)) (hbufs : ∀ buf ∈ bufs, buf ≠ []) :
    Fed rpc (seg.feedAll out bufs).1 (seg.feedAll out bufs).2 (Scan.start.run rpc (input ++ bufs.flatten)) := by
  induction bufs generalizing seg out input with
  | nil =>
    rw [flatten_nil, append_nil]
    exact h
  | cons buf bufs ih =>
    rw [Segmentator.feedAll]
    rcases h with ⟨heoc, hsegs, heol, heoc', hout⟩ | hkept
    · have hknown : (Scan.start.run rpc input).eol ≠ .unknown := by
        rcases (Scan.sound_run hrpc input).styled with ⟨-, -, hlive, -⟩ | ⟨l, ls, hdec, -⟩
        · rw [heoc'] at hlive
          cases hlive
        · exact hdec.known
      rw [if_pos heoc, run_append, run_of_eoc heoc' hknown]
      exact .inl ⟨heoc, hsegs, heol, heoc', hout⟩
    · have hfed := hkept.feed (hbufs buf mem_cons_self)
      rw [← run_append] at hfed
      rw [if_neg (by simp [hkept.live.1]), flatten_cons, ← append_assoc]
      exact ih hfed (fun b hb => hbufs b (mem_cons_of_mem buf hb))

/-- What the segmentator still holds at the end is the last chunk. -/
theorem Kept.finish (h : Kept rpc seg out s) : (seg.finish out).2.map ChunkDesc.view = s.numberedPieces ∧
      (∀ chunk ∈ (seg.finish out).2, chunk.Fits) ∧ (seg.finish out).1.eol = s.eol := by
  rw [Segmentator.finish, Segmentator.cutChunk, Scan.numberedPieces, ← h.tail, ← h.first, ← h.out.1]
  rcases hsegs : seg.segs with _ | ⟨x, xs⟩
  · rw [if_pos (show segBytes [] = [] from rfl), append_nil]
    exact ⟨rfl, h.out.2, h.eol⟩
  · have hmem : ∀ y ∈ x :: xs, y ∈ seg.segs := fun y hy => by rw [hsegs]; exact hy
    have hx : segBytes (x :: xs) ≠ [] := by
      intro hnil
      exact (h.segs x (hmem x mem_cons_self)).2 (append_eq_nil_iff.mp hnil).1
    rw [if_neg (cons_ne_nil x xs), if_neg hx, map_append]
    exact ⟨rfl, forall_mem_concat h.out.2 fun y hy => (h.segs y (hmem y hy)).1, h.eol⟩

/-- The chunks of a stream are the groups of its scan. -/
theorem segment_eq (hrpc : 1 ≤ rpc) (hbufs : ∀ buf ∈ bufs, buf ≠ []) :
    (segment rpc bufs).2.map ChunkDesc.view = (Scan.start.run rpc bufs.flatten).numberedPieces ∧
      (∀ chunk ∈ (segment rpc bufs).2, chunk.Fits) ∧
      (segment rpc bufs).1.eol = (Scan.start.run rpc bufs.flatten).eol := by
  have hfed : Fed rpc _ _ (Scan.start.run rpc bufs.flatten) :=
    @Fed.feedAll rpc (Segmentator.new rpc) [] bufs [] hrpc (.inr new_kept) hbufs
  rcases hfed with ⟨heoc, hsegs, heol, heoc', hout⟩ | hkept
  · rcases (Scan.sound_run hrpc bufs.flatten).grouped with ⟨hlive, -⟩ | ⟨-, hline, hgroup, -⟩
    · rw [heoc'] at hlive
      cases hlive
    · have htail : (Scan.start.run rpc bufs.flatten).tail = [] := by
        rw [Scan.tail, hline, hgroup]
        rfl
      rw [segment, Segmentator.finish, Segmentator.cutChunk, if_pos hsegs, Scan.numberedPieces,
        if_pos htail, append_nil]
      exact ⟨hout.1, hout.2, heol⟩
  · exact hkept.finish

end Feeding

section Appending

variable {data : List UInt8} {pre out : List ChunkDesc} {seg : Segmentator}

/-- The same scan with other chunks handed over before. -/
def Feed.behind (f : Feed) (pre : List ChunkDesc) : Feed := { f with out := pre ++ f.out }

/-- The scan only adds to the chunks handed over. -/
def Adds {β : Type} (g : Feed → Feed × β) : Prop := ∀ f pre, g (f.behind pre) = ((g f).1.behind pre, (g f).2)

theorem cutChunk_append : seg.cutChunk (pre ++ out) = ((seg.cutChunk out).1, pre ++ (seg.cutChunk out).2) := by
  rw [Segmentator.cutChunk, Segmentator.cutChunk]
  by_cases hsegs : seg.segs = []
  · rw [if_pos hsegs, if_pos hsegs]
  · rw [if_neg hsegs, if_neg hsegs, append_assoc]

theorem cut_adds (flag : Bool) : Adds fun f => (f.cut, flag) := by
  intro f pre
  simp [Feed.cut, Feed.behind, cutChunk_append]

section

variable {β : Type} {g h : Feed → Feed × β} (hg : Adds g)
include hg

theorem Adds.comp {k : Feed → Feed} (hk : ∀ f pre, k (f.behind pre) = (k f).behind pre) : Adds fun f => g (k f) :=
  fun f pre => (congrArg g (hk f pre)).trans (hg (k f) pre)

theorem Adds.ite {c : Feed → Prop} [DecidablePred c] (hc : ∀ f pre, c (f.behind pre) = c f) (hh : Adds h) :
    Adds fun f => if c f then g f else h f := by
  intro f pre
  simp only [hc]
  split_ifs
  · exact hg f pre
  · exact hh f pre

end

theorem rowBoundary_adds : Adds (Feed.rowBoundary data) := by
  refine .ite ((cut_adds true).comp (k := fun f => f.markEoc.pushRest data) ?_) (fun _ _ => rfl)
    (.ite ((cut_adds false).comp (k := fun f => f.countRow.push data f.i) fun _ _ => rfl) (fun _ _ => rfl) fun _ _ => rfl)
  exact fun f pre => (apply_ite (Feed.behind · pre) (f.chunkStart < f.i) (f.markEoc.push data f.i) f.markEoc).symm

theorem boundary_adds : Adds (Feed.boundary data) := by
  intro f pre
  simp [Feed.boundary, rowBoundary_adds f pre]

theorem detect_adds (b) : Adds (fun f => f.detect data b) := by
  refine .ite (fun _ _ => rfl) (fun _ _ => rfl) (.ite (fun _ _ => rfl) (fun _ _ => rfl) (.ite ?_ (fun _ _ => rfl)
    (.ite ?_ (fun _ _ => rfl) fun _ _ => rfl)))
  · exact boundary_adds.comp (k := fun f => { f.setEol .nl with i := f.i + 1 }) fun _ _ => rfl
  · intro f pre
    have hi : (f.behind pre).i = f.i := rfl
    simp only [hi]
    cases data[f.i + 1]? with
    | none => rfl
    | some c =>
      exact Adds.ite (c := fun _ => c = lf)
        (boundary_adds.comp (k := fun f => { f.setEol .crnl with i := f.i + 2 }) fun _ _ => rfl) (fun _ _ => rfl)
        (boundary_adds.comp (k := fun f => { f.setEol .cr with i := f.i + 1 }) fun _ _ => rfl) f pre

theorem scanNl_adds (boundaryAt : Nat → Bool) (b) : Adds (fun f => f.scanNl data boundaryAt b) := by
  intro f pre
  have hmem : (f.behind pre).memchr data b = f.memchr data b := rfl
  simp only [Feed.scanNl, hmem]
  cases f.memchr data b with
  | none => rfl
  | some j =>
    have hadds := (boundary_adds : Adds (Feed.boundary data)).comp (k := fun f => { f with i := f.i + j + 1 }) fun _ _ => rfl
    exact hadds.ite (c := fun f => boundaryAt (f.i + j)) (h := fun f => ({ f with i := f.i + j + 1 }, .next))
      (fun _ _ => rfl) (fun _ _ => rfl) f pre

theorem round_adds (b) : Adds (fun f => f.round data b) := by
  intro f pre
  have hseg : (f.behind pre).seg = f.seg := rfl
  have hpair : (f.behind pre).pairAt data = f.pairAt data := rfl
  simp only [Feed.round, hseg]
  cases f.seg.eol with
  | unknown => exact detect_adds b f pre
  | nl | crnl => exact scanNl_adds _ lf f pre
  | cr => exact scanNl_adds _ ret f pre

theorem loop_adds (fuel : Nat) : Adds (Feed.loop data fuel) := by
  induction fuel with
  | zero => exact fun _ _ => rfl
  | succ fuel ih =>
    intro f pre
    have hi : (f.behind pre).i = f.i := rfl
    rw [Feed.loop, Feed.loop, hi]
    cases data[f.i]? with
    | none => rfl
    | some b =>
      have hround := @round_adds data b f pre
      simp only at hround ⊢
      rw [hround]
      rcases f.round data b with ⟨g, _ | _ | _⟩
      · exact ih g pre
      · rfl
      · rfl

theorem resume_adds : Adds (Feed.resume data) := by
  refine .ite (rowBoundary_adds.comp (k := Feed.resumeCr data) ?_) (fun _ _ => rfl) (.ite ?_ (fun _ _ => rfl) fun _ _ => rfl)
  · intro f pre
    rw [Feed.resumeCr, Feed.resumeCr]
    split_ifs <;> rfl
  · exact rowBoundary_adds.comp (k := fun f => { f with seg := { f.seg with prevEndedCr := false }, i := 1 }) fun _ _ => rfl

/-- What `feed` does does not depend on the chunks handed over before. -/
theorem feed_append : seg.feed data (pre ++ out) =
    ((seg.feed data out).1, pre ++ (seg.feed data out).2.1, (seg.feed data out).2.2) := by
  have henter : Feed.enter seg (pre ++ out) = (Feed.enter seg out).behind pre := rfl
  rw [Segmentator.feed, Segmentator.feed, henter, resume_adds]
  rcases (Feed.enter seg out).resume data with ⟨f, _ | _⟩
  · have hclear : (f.behind pre).clearPrevCr = f.clearPrevCr.behind pre := rfl
    simp only [hclear]
    rw [loop_adds]
    rcases Feed.loop data data.length f.clearPrevCr with ⟨g, _ | _⟩ <;> rfl
  · rfl

theorem finish_append : seg.finish (pre ++ out) = ((seg.finish out).1, pre ++ (seg.finish out).2) := cutChunk_append

theorem feedAll_out {bufs : List (List UInt8)} :
    seg.feedAll (pre ++ out) bufs = ((seg.feedAll out bufs).1, pre ++ (seg.feedAll out bufs).2) := by
  induction bufs generalizing seg out with
  | nil => rfl
  | cons buf bufs ih =>
    rw [Segmentator.feedAll, Segmentator.feedAll]
    by_cases heoc : seg.eoc = true
    · rw [if_pos heoc, if_pos heoc]
    · rw [if_neg heoc, if_neg heoc, feed_append]
      exact ih

theorem feedAll_append : seg.feedAll out (xs ++ ys) = (seg.feedAll out xs).1.feedAll (seg.feedAll out xs).2 ys := by
  induction xs generalizing seg out with
  | nil => rfl
  | cons buf xs ih =>
    rw [cons_append, Segmentator.feedAll]
    by_cases heoc : seg.eoc = true
    · have hstop : ∀ bufs, seg.feedAll out bufs = (seg, out) := by
        intro bufs
        cases bufs with
        | nil => rfl
        | cons => rw [Segmentator.feedAll, if_pos heoc]
      rw [if_pos heoc, hstop, hstop]
    · rw [if_neg heoc, ih, Segmentator.feedAll, if_neg heoc]

end Appending

end CopySegmentator
