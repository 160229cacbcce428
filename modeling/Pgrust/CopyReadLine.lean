import Pgrust.CopySegmentator

/-!
The buffered reader of text-format COPY: bytes come from a source in pieces of any size, are checked
against the file encoding as far as whole characters are there, and are scanned for the end of the
line with lookahead that may ask for more. Over valid input it reads the lines that a reader with
the whole stream at hand reads.
-/

namespace CopyReadLine

open CopyText CopySegmentator List Nat

variable {lineno : Nat} {α : Type} {eol : EolType}

section Sources

/-- What `copy_get_data` reads from: some bytes, as many as asked for at most, and none only at the
end. `rest` is what is still to come, `Ok` the states that the source can be in. -/
structure Source (σ : Type) where
  pull : σ → Nat → List UInt8 × σ
  rest : σ → List UInt8
  Ok : σ → Prop
  ok_pull : ∀ s n, Ok s → Ok (pull s n).2
  rest_eq : ∀ s n, Ok s → rest s = (pull s n).1 ++ rest (pull s n).2
  length_le : ∀ s n, Ok s → (pull s n).1.length ≤ n
  ended : ∀ s n, Ok s → 0 < n → (pull s n).1 = [] → rest s = []

/-- The segments from the current one on, and the place in it. -/
structure ChunkCursor where
  segs : List ChunkSeg
  off : Nat

namespace ChunkCursor

def entry (segs : List ChunkSeg) : Nat := (segs.head?.map ChunkSeg.start).getD 0

def new (segs : List ChunkSeg) : ChunkCursor where
  segs := segs
  off := entry segs

def readFrom : List ChunkSeg → Nat → Nat → List UInt8 × ChunkCursor
  | [], off, _ => ([], ⟨[], off⟩)
  | s :: segs, off, n =>
    if n ≤ s.stop - off then ((s.buf.drop off).take n, ⟨s :: segs, off + n⟩)
    else
      let next := readFrom segs (entry segs) (n - (s.stop - off))
      ((s.buf.drop off).take (s.stop - off) ++ next.1, next.2)

def read (cur : ChunkCursor) (n : Nat) : List UInt8 × ChunkCursor := readFrom cur.segs cur.off n

/-- What is left of the chunk. -/
def rest (cur : ChunkCursor) : List UInt8 :=
  match cur.segs with
  | [] => []
  | s :: segs => (s.buf.take s.stop).drop cur.off ++ segBytes segs

/-- The cursor stands in its segment. -/
def Fits (cur : ChunkCursor) : Prop :=
  (∀ s ∈ cur.segs, s.Fits) ∧ ∀ s ∈ cur.segs.head?, s.start ≤ cur.off ∧ cur.off ≤ s.stop

theorem new_fits {segs : List ChunkSeg} (h : ∀ s ∈ segs, s.Fits) : (new segs).Fits := by
  refine ⟨h, ?_⟩
  cases segs with
  | nil => simp [new]
  | cons s =>
    intro s' hs'
    cases hs'
    exact ⟨Nat.le_refl _, (h s mem_cons_self).1⟩

theorem new_rest (segs : List ChunkSeg) : (new segs).rest = segBytes segs := by
  cases segs with
  | nil => rfl
  | cons => simp [new, rest, entry, segBytes, ChunkSeg.bytes]

theorem take_drop_range (buf : List α) (hn : n ≤ b - a) :
    (buf.take b).drop a = (buf.drop a).take n ++ (buf.take b).drop (a + n) := by
  rw [drop_take, drop_take, ← drop_drop]
  have hsum : b - a = n + (b - (a + n)) := by omega
  rw [hsum, take_add]

/-- Reading hands over the front of what is left. -/
theorem readFrom_spec {segs : List ChunkSeg} {off n : Nat} (h : Fits ⟨segs, off⟩) :
    (readFrom segs off n).2.Fits ∧ rest ⟨segs, off⟩ = (readFrom segs off n).1 ++ (readFrom segs off n).2.rest ∧
      (readFrom segs off n).1.length ≤ n ∧
      (0 < n → (readFrom segs off n).1 = [] → rest ⟨segs, off⟩ = []) := by
  induction segs generalizing off n with
  | nil => exact ⟨h, rfl, Nat.zero_le n, fun _ _ => rfl⟩
  | cons s segs ih =>
    have hs := h.1 s mem_cons_self
    have hoff := h.2 s rfl
    have hsegs : ∀ x ∈ segs, x.Fits := fun x hx => h.1 x (mem_cons_of_mem s hx)
    rw [readFrom]
    by_cases hn : n ≤ s.stop - off
    · rw [if_pos hn]
      have hlen : ((s.buf.drop off).take n).length = n := by
        rw [length_take, length_drop]
        have := hs.2
        omega
      refine ⟨⟨h.1, ?_⟩, ?_, Nat.le_of_eq hlen, ?_⟩
      · intro s' hs'
        cases hs'
        simp only at hoff ⊢
        omega
      · simp only [rest]
        rw [take_drop_range s.buf hn, append_assoc]
      · intro hpos hnil
        simp only at hnil
        rw [hnil, length_nil] at hlen
        omega
    · rw [if_neg hn]
      obtain ⟨hfits, hrest, hlen, hend⟩ := @ih (entry segs) (n - (s.stop - off)) (new_fits hsegs)
      have hentry : rest ⟨segs, entry segs⟩ = segBytes segs := new_rest segs
      have htake : (s.buf.take s.stop).drop off = (s.buf.drop off).take (s.stop - off) := drop_take
      refine ⟨hfits, ?_, ?_, ?_⟩
      · rw [append_assoc, ← hrest, hentry]
        simp only [rest]
        rw [htake]
      · rw [length_append, length_take]
        omega
      · intro hpos hnil
        rw [append_eq_nil_iff] at hnil
        simp only [rest]
        rw [htake, hnil.1, ← hentry, hend (by omega) hnil.2]
        rfl

/-- A chunk as a source. -/
def source : Source ChunkCursor where
  pull := read
  rest := rest
  Ok := Fits
  ok_pull _ _ h := (readFrom_spec h).1
  rest_eq _ _ h := (readFrom_spec h).2.1
  length_le _ _ h := (readFrom_spec h).2.2.1
  ended _ _ h := (readFrom_spec h).2.2.2

end ChunkCursor

end Sources

section Encoding

/-- A file encoding whose characters of several bytes have no ASCII byte: `verifychar` is its
character verifier, asked only at a byte with the high bit set. It looks at the bytes of the
character alone, and refuses a character that is cut off. -/
structure Encoding where
  maxLength : Nat
  verifychar : List UInt8 → Option Nat
  maxLength_le : maxLength ≤ 4
  bounds : ∀ b s l, ¬ b < 128 → verifychar (b :: s) = some l → 1 ≤ l ∧ l ≤ (b :: s).length ∧ l ≤ maxLength
  prefixed : ∀ b s l t, ¬ b < 128 → verifychar (b :: s) = some l → verifychar ((b :: s).take l ++ t) = some l
  cut : ∀ b s l k, ¬ b < 128 → verifychar (b :: s) = some l → 0 < k → k < l → verifychar ((b :: s).take k) = none
  ascii : ∀ b s l, ¬ b < 128 → verifychar (b :: s) = some l → ∀ x ∈ (b :: s).take l, ¬ x < 128

namespace Encoding

variable (enc : Encoding)

def verifyStr : Nat → List UInt8 → Nat
  | 0, _ => 0
  | _, [] => 0
  | fuel + 1, b :: tail =>
    if b < 128 then
      if b = 0 then 0 else 1 + verifyStr fuel tail
    else
      match enc.verifychar (b :: tail) with
      | none => 0
      | some l => l + verifyStr fuel ((b :: tail).drop l)

/-- The number of leading bytes that are whole characters. -/
def verifymbstr (s : List UInt8) : Nat := enc.verifyStr s.length s

/-- A sequence of whole characters. -/
inductive Valid : List UInt8 → Prop
  | nil : Valid []
  | ascii {b : UInt8} {s : List UInt8} : b < 128 → b ≠ 0 → Valid s → Valid (b :: s)
  | char {b : UInt8} {s : List UInt8} {l : Nat} :
      ¬ b < 128 → enc.verifychar (b :: s) = some l → Valid ((b :: s).drop l) → Valid (b :: s)

variable {enc} {fuel : Nat} {r u : List UInt8}

@[simp] theorem verifyStr_nil : enc.verifyStr fuel [] = 0 := by
  cases fuel <;> rfl

theorem verifyStr_ascii (hb : b < 128) (hzero : b ≠ 0) :
    enc.verifyStr (fuel + 1) (b :: u) = 1 + enc.verifyStr fuel u := by
  rw [verifyStr, if_pos hb, if_neg hzero]

theorem verifyStr_char (hb : ¬ b < 128) (hl : enc.verifychar (b :: u) = some l) :
    enc.verifyStr (fuel + 1) (b :: u) = l + enc.verifyStr fuel ((b :: u).drop l) := by
  rw [verifyStr, if_neg hb]
  simp [hl]

theorem verifyStr_cut (hb : ¬ b < 128) (hnone : enc.verifychar (b :: u) = none) :
    enc.verifyStr fuel (b :: u) = 0 := by
  cases fuel with
  | zero => rfl
  | succ =>
    rw [verifyStr, if_neg hb]
    simp [hnone]

variable (enc) in
/-- The front `u` of the valid bytes `r` is verified up to `n`: all whole characters in it. -/
def Verified (r u : List UInt8) (n : Nat) : Prop :=
  n ≤ u.length ∧ enc.Valid (r.drop n) ∧ (n = u.length ∨ (u.length < n + enc.maxLength ∧ u.length < r.length))

theorem verified_nil (h : enc.Valid r) : enc.Verified r [] 0 := ⟨Nat.le_refl 0, h, .inl rfl⟩

theorem Verified.shift (h : enc.Verified (r.drop l) (u.drop l) n) (hl : l ≤ u.length) (hr : l ≤ r.length) :
    enc.Verified r u (l + n) := by
  obtain ⟨hn, hvalid, hrest⟩ := h
  rw [drop_drop] at hvalid
  rw [length_drop] at hn hrest
  rw [length_drop] at hrest
  refine ⟨by omega, hvalid, ?_⟩
  omega

theorem verifyStr_verified (h : enc.Valid r) (hu : u <+: r) (hfuel : u.length ≤ fuel) :
    enc.Verified r u (enc.verifyStr fuel u) := by
  induction h generalizing u fuel with
  | nil =>
    rw [prefix_nil.mp hu, verifyStr_nil]
    exact verified_nil .nil
  | @ascii b s hb hzero hs ih =>
    cases u with
    | nil =>
      rw [verifyStr_nil]
      exact verified_nil (.ascii hb hzero hs)
    | cons b' u =>
      obtain ⟨rfl, htail⟩ := cons_prefix_cons.mp hu
      cases fuel with
      | zero => cases hfuel
      | succ fuel =>
        rw [verifyStr_ascii hb hzero]
        have hrest : enc.Verified ((b' :: s).drop 1) ((b' :: u).drop 1) (enc.verifyStr fuel u) :=
          ih htail (le_of_succ_le_succ hfuel)
        exact hrest.shift (by simp) (by simp)
  | @char b s l hb hl hs ih =>
    obtain ⟨hpos, hlen, hmax⟩ := enc.bounds _ _ _ hb hl
    cases u with
    | nil =>
      rw [verifyStr_nil]
      exact verified_nil (.char hb hl hs)
    | cons b' u =>
      obtain ⟨rfl, -⟩ := cons_prefix_cons.mp hu
      by_cases hlu : l ≤ (b' :: u).length
      · -- the whole character is there
        obtain ⟨t, ht⟩ := hu
        have htake : (b' :: s).take l = (b' :: u).take l := by
          rw [← ht, take_append_of_le_length hlu]
        have hdrop : (b' :: u).drop l <+: (b' :: s).drop l := by
          rw [← ht, drop_append_of_le_length hlu]
          exact prefix_append _ t
        have hchar : enc.verifychar (b' :: u) = some l := by
          have hp := enc.prefixed _ _ _ ((b' :: u).drop l) hb hl
          rw [htake, take_append_drop] at hp
          exact hp
        cases fuel with
        | zero => cases hfuel
        | succ =>
          rw [verifyStr_char hb hchar]
          refine (ih hdrop ?_).shift hlu hlen
          rw [length_drop]
          omega
      · have hcut : enc.verifychar (b' :: u) = none := by
          have hc := enc.cut _ _ _ (b' :: u).length hb hl (succ_pos _) (Nat.lt_of_not_le hlu)
          rw [prefix_iff_eq_take.mp hu]
          exact hc
        rw [verifyStr_cut hb hcut]
        refine ⟨Nat.zero_le _, .char hb hl hs, .inr ⟨?_, ?_⟩⟩
        · omega
        · omega

theorem verifymbstr_verified (h : enc.Valid r) (hu : u <+: r) : enc.Verified r u (enc.verifymbstr u) :=
  verifyStr_verified h hu (Nat.le_refl _)

/-- Bytes that the verifier takes to their end are whole characters. -/
theorem valid_of_verifyStr (s : List UInt8) (h : enc.verifyStr fuel s = s.length) : enc.Valid s := by
  fun_induction verifyStr enc fuel s with
  | case1 =>
    rw [eq_nil_of_length_eq_zero h.symm]
    exact .nil
  | case2 => exact .nil
  | case3 => cases h
  | case4 fuel b tail hb hzero ih =>
    refine .ascii hb hzero (ih ?_)
    rw [length_cons] at h
    omega
  | case5 => cases h
  | case6 fuel b tail hb l hl ih =>
    refine .char hb hl (ih ?_)
    rw [length_drop]
    omega

/-- The bytes are valid in the encoding. -/
def Accepts (enc : Encoding) (s : List UInt8) : Prop := enc.verifymbstr s = s.length

instance (s : List UInt8) : Decidable (enc.Accepts s) := inferInstanceAs (Decidable (_ = _))

theorem Accepts.valid (h : enc.Accepts s) : enc.Valid s := valid_of_verifyStr s h

/-- Valid bytes are cut into valid bytes behind an ASCII byte. -/
theorem Valid.split (hb : b < 128) (h : enc.Valid r) (hr : r = xs ++ b :: ys) :
    enc.Valid (xs ++ [b]) ∧ enc.Valid ys := by
  induction h generalizing xs with
  | nil => simp at hr
  | @ascii b' s hb' hzero hs ih =>
    cases xs with
    | nil =>
      cases hr
      exact ⟨.ascii hb' hzero .nil, hs⟩
    | cons =>
      obtain ⟨rfl, rfl⟩ := List.cons.inj hr
      obtain ⟨hfront, hback⟩ := ih rfl
      exact ⟨.ascii hb' hzero hfront, hback⟩
  | @char b' s l hb' hl hs ih =>
    obtain ⟨hpos, hlen, -⟩ := enc.bounds _ _ _ hb' hl
    -- the bytes of the character are not ASCII, so the cut is behind them
    have hle : l ≤ xs.length := by
      by_contra hlt
      have hmem : b ∈ (b' :: s).take l := by
        rw [hr, take_append, take_of_length_le (by omega)]
        have hk : l - xs.length = (l - xs.length - 1) + 1 := by omega
        rw [hk]
        exact mem_append_right xs mem_cons_self
      exact enc.ascii _ _ _ hb' hl b hmem hb
    have hdrop : (b' :: s).drop l = xs.drop l ++ b :: ys := by
      rw [hr, drop_append_of_le_length hle]
    obtain ⟨hfront, hback⟩ := ih hdrop
    refine ⟨?_, hback⟩
    cases xs with
    | nil =>
      rw [length_nil] at hle
      omega
    | cons x xs =>
      obtain ⟨rfl, -⟩ := List.cons.inj hr
      have hchar : enc.verifychar (b' :: (xs ++ [b])) = some l := by
        have hp := enc.prefixed _ _ _ ((b' :: xs).drop l ++ [b]) hb' hl
        rw [hr, take_append_of_le_length hle, ← append_assoc, take_append_drop] at hp
        exact hp
      have hrest : (b' :: (xs ++ [b])).drop l = (b' :: xs).drop l ++ [b] := by
        rw [← cons_append, drop_append_of_le_length hle]
      rw [cons_append]
      refine .char hb' hchar ?_
      rw [hrest]
      exact hfront

end Encoding

end Encoding

section Utf8

variable {s : List UInt8} {l : Nat}

end Utf8

section Window

variable {byte byte' : Nat → UInt8} {avail k : Nat} {hitEof alone : Bool}

/-- The act on the bytes that are loaded asks for more, or is the act on the whole stream. -/
def Agrees (x y : Act) : Prop := x = .refill ∨ x = y

/-- A look at the byte `k` places on. -/
theorem agrees_short (h : k < avail → Agrees x y) :
    Agrees (if Short avail k false then .refill else x) (if Short avail' k true then .refill else y) := by
  rw [if_neg (show ¬ Short avail' k true by simp [Short])]
  split_ifs with hshort
  · exact .inl rfl
  · exact h (by simpa [Short] using hshort)

section

variable (hbyte : ∀ k, k < avail → byte k = byte' k)
include hbyte

theorem markerTail_window :
    Agrees (markerTail eol byte avail false alone k) (markerTail eol byte' avail' true alone k) := by
  apply agrees_short
  intro hk
  rw [hbyte k hk]
  exact .inr rfl

theorem markerAct_window :
    Agrees (markerAct eol byte avail false alone) (markerAct eol byte' avail' true alone) := by
  rw [markerAct, markerAct]
  by_cases heol : eol = .crnl
  · rw [if_pos heol, if_pos heol]
    apply agrees_short
    intro hk
    rw [hbyte 2 hk]
    split_ifs
    · exact .inr rfl
    · exact .inr rfl
    · exact markerTail_window hbyte
  · rw [if_neg heol, if_neg heol]
    exact markerTail_window hbyte

theorem crAct_window : Agrees (crAct eol byte avail false) (crAct eol byte' avail' true) := by
  rw [crAct, crAct]
  by_cases heol : eol = .unknown ∨ eol = .crnl
  · rw [if_pos heol, if_pos heol]
    apply agrees_short
    intro hk
    rw [hbyte 1 hk]
    exact .inr rfl
  · rw [if_neg heol, if_neg heol]
    exact .inr rfl

theorem backslashAct_window (hle : avail ≤ avail') :
    Agrees (backslashAct eol byte avail false alone) (backslashAct eol byte' avail' true alone) := by
  apply agrees_short
  intro hk
  rw [if_neg (Nat.not_le.mpr hk), if_neg (Nat.not_le.mpr (Nat.lt_of_lt_of_le hk hle)), hbyte 1 hk]
  split_ifs
  · exact markerAct_window hbyte
  · exact .inr rfl

end

/-- Before the end of the input, lookahead behind the loaded bytes asks for more. -/
theorem scanAct_window (hpos : 1 ≤ avail) (hbyte : ∀ k, k < avail → byte k = byte' k) (hle : avail ≤ avail') :
    Agrees (scanAct eol byte avail false alone) (scanAct eol byte' avail' true alone) := by
  rw [scanAct, scanAct, hbyte 0 hpos]
  split_ifs
  · exact crAct_window hbyte
  · exact .inr rfl
  · exact backslashAct_window hbyte hle
  · exact .inr rfl

/-- What an act uses of the stream is loaded, a marker stands alone on its line, and more is asked
for only before the end of the input. -/
def Within (avail : Nat) (hitEof alone : Bool) : Act → Prop
  | .line n _ => n ≤ avail
  | .skipPair => 2 ≤ avail
  | .lastBackslash => avail ≤ 1 ∧ hitEof = true
  | .marker _ => alone = true
  | .refill => avail ≤ 3 ∧ hitEof = false
  | _ => True

theorem markerTail_within (hk : k ≤ 3) : Within avail hitEof alone (markerTail eol byte avail hitEof alone k) := by
  rw [markerTail]
  split_ifs with hshort _ _ halone
  · exact ⟨Nat.le_trans hshort.1 hk, hshort.2⟩
  · exact trivial
  · exact trivial
  · exact trivial
  · simpa [Within] using halone

theorem markerAct_within : Within avail hitEof alone (markerAct eol byte avail hitEof alone) := by
  rw [markerAct]
  split_ifs with _ hshort
  · exact ⟨le_succ_of_le hshort.1, hshort.2⟩
  · exact trivial
  · exact trivial
  · exact markerTail_within (Nat.le_refl 3)
  · exact markerTail_within (le_succ 2)

theorem crAct_within (hpos : 1 ≤ avail) (hpad : hitEof = true → byte avail = 0) :
    Within avail hitEof alone (crAct eol byte avail hitEof) := by
  rw [crAct]
  split_ifs with _ hshort hlf
  · exact ⟨Nat.le_trans hshort.1 (by decide), hshort.2⟩
  · -- the newline is behind the loaded bytes only where the padding is, which is no newline
    by_contra hlt
    have hone : avail = 1 := by
      simp only [Within] at hlt
      omega
    have heof : hitEof = true := by simpa [Short, hone] using hshort
    rw [← hone, hpad heof] at hlf
    exact absurd hlf (by decide)
  · exact trivial
  · exact hpos
  · exact trivial
  · exact hpos

theorem lfAct_within (hpos : 1 ≤ avail) : Within avail hitEof alone (lfAct eol) := by
  rw [lfAct]
  split_ifs
  · exact trivial
  · exact hpos

theorem backslashAct_within : Within avail hitEof alone (backslashAct eol byte avail hitEof alone) := by
  rw [backslashAct]
  split_ifs with hshort hone
  · exact ⟨Nat.le_trans hshort.1 (by decide), hshort.2⟩
  · exact ⟨hone, by simpa [Short, hone] using hshort⟩
  · exact markerAct_within
  · exact Nat.lt_of_not_le hone

theorem scanAct_within (hpos : 1 ≤ avail) (hpad : hitEof = true → byte avail = 0) :
    Within avail hitEof alone (scanAct eol byte avail hitEof alone) := by
  rw [scanAct]
  split_ifs
  · exact crAct_within hpos hpad
  · exact lfAct_within hpos
  · exact backslashAct_within
  · exact trivial

end Window

/-- What stops the reading of a line: an error of the COPY format, one of the encoding, or no fuel. -/
inductive Failure
  | copy (e : CopyError)
  | conversion
  | stuck
  deriving DecidableEq, Repr

def rawBufSize : Nat := 65536

/-- The fields of `CopyFromState` that the reader uses when the file encoding is the server's: the
raw buffer is the input buffer. `raw` holds the loaded bytes, behind which stands a zero byte. -/
structure Buffers (σ : Type) where
  raw : List UInt8
  rawIndex : Nat
  rawEof : Bool
  inputIndex : Nat
  inputLen : Nat
  inputEof : Bool
  inputError : Bool
  lineBuf : List UInt8
  eol : EolType
  src : σ

/-- How `copy_read_line_text` returns; all but `newline` are its `true`. -/
inductive LineEnd
  | newline
  | eof
  | marker
  deriving DecidableEq, Repr

namespace Buffers

variable {σ : Type}

/-- The state before the first read. -/
def fresh (eol : EolType) (src : σ) : Buffers σ where
  raw := []
  rawIndex := 0
  rawEof := false
  inputIndex := 0
  inputLen := 0
  inputEof := false
  inputError := false
  lineBuf := []
  eol := eol
  src := src

def inputByte (b : Buffers σ) (i : Nat) : UInt8 := b.raw.getD i 0

variable (S : Source σ) (enc : Encoding)

def copyLoadRawBuf (b : Buffers σ) : Buffers σ :=
  let kept := b.raw.drop b.rawIndex
  let got := S.pull b.src (rawBufSize - kept.length)
  { b with
    raw := kept ++ got.1
    rawIndex := 0
    inputLen := b.inputLen - b.inputIndex
    inputIndex := 0
    rawEof := b.rawEof || got.1.isEmpty
    src := got.2 }

def copyConvertBuf (b : Buffers σ) : Buffers σ :=
  let unverified := b.raw.length - b.inputLen
  if unverified = 0 then
    if b.rawEof then { b with inputEof := true } else b
  else
    let nverified := enc.verifymbstr (b.raw.drop b.inputLen)
    if nverified = 0 then
      if b.rawEof || enc.maxLength ≤ unverified then { b with inputError := true } else b
    else { b with inputLen := b.inputLen + nverified }

/-- The loop of `copy_load_input_buf`: until there is more than `nbytes`, or the end. -/
def loadLoop (nbytes : Nat) : Nat → Buffers σ → Except Failure (Buffers σ)
  | 0, _ => .error .stuck
  | fuel + 1, b =>
    let b := b.copyConvertBuf enc
    if nbytes < b.inputLen - b.inputIndex then .ok b
    else if b.inputError then .error .conversion
    else if b.inputEof then .ok b
    else loadLoop nbytes fuel (b.copyLoadRawBuf S)

def copyLoadInputBuf (fuel : Nat) (b : Buffers σ) : Except Failure (Buffers σ) :=
  loadLoop S enc (b.inputLen - b.inputIndex) fuel { b with rawIndex := b.inputIndex }

def refillLinebuf (b : Buffers σ) (upto : Nat) : Buffers σ :=
  if b.inputIndex < upto then
    { b with lineBuf := b.lineBuf ++ (b.raw.take upto).drop b.inputIndex, inputIndex := upto }
  else b

/-- The local variables of `copy_read_line_text`. -/
structure Locals where
  ptr : Nat
  len : Nat
  needData : Bool
  hitEof : Bool

def act (b : Buffers σ) (v : Locals) : Act :=
  scanAct b.eol (fun k => b.inputByte (v.ptr + k)) (v.len - v.ptr) v.hitEof
    (b.lineBuf.isEmpty && v.ptr ≤ b.inputIndex)

/-- More bytes for the scan, where it has none left or asked for them; `none` at the end. -/
def ensure (fuel : Nat) (b : Buffers σ) (v : Locals) : Except Failure (Buffers σ × Option Locals) :=
  if v.len ≤ v.ptr ∨ v.needData = true then
    match (b.refillLinebuf v.ptr).copyLoadInputBuf S enc fuel with
    | .error e => .error e
    | .ok b =>
      if b.inputLen - b.inputIndex = 0 then .ok (b, none)
      else .ok (b, some { ptr := b.inputIndex, len := b.inputLen, needData := false, hitEof := b.inputEof })
  else .ok (b, some v)

def textLoop : Nat → Buffers σ → Locals → Except Failure (Buffers σ × LineEnd)
  | 0, _, _ => .error .stuck
  | fuel + 1, b, v =>
    match b.ensure S enc fuel v with
    | .error e => .error e
    | .ok (b, none) => .ok (b, .eof)
    | .ok (b, some v) =>
      match b.act v with
      | .refill => textLoop fuel b { v with needData := true }
      | .fail e => .error (.copy e)
      | .line n eol => .ok ({ b with eol := eol }.refillLinebuf (v.ptr + n), .newline)
      | .marker n => .ok ({ b with inputIndex := v.ptr + n }.refillLinebuf (v.ptr + n), .marker)
      | .lastBackslash => .ok (b.refillLinebuf (v.ptr + 1), .eof)
      | .skip => textLoop fuel b { v with ptr := v.ptr + 1 }
      | .skipPair => textLoop fuel b { v with ptr := v.ptr + 2 }

def copyReadLineText (fuel : Nat) (b : Buffers σ) : Except Failure (Buffers σ × LineEnd) :=
  textLoop S enc fuel b { ptr := b.inputIndex, len := b.inputLen, needData := false, hitEof := false }

def copyReadLine (fuel : Nat) (b : Buffers σ) : Except Failure (Buffers σ × LineEnd) :=
  match { b with lineBuf := [] }.copyReadLineText S enc fuel with
  | .error e => .error e
  | .ok (b, .newline) => .ok ({ b with lineBuf := strip b.eol b.lineBuf }, .newline)
  | .ok (b, done) => .ok (b, done)

/-- The lines that the callers of `copy_read_line` get, with their numbers, and how the reading ends:
it goes on until the end is reported with an empty line. -/
def copyLines : Nat → Nat → Buffers σ → Except Failure (List (Nat × List UInt8) × Ending)
  | 0, _, _ => .error .stuck
  | fuel + 1, lineno, b =>
    match b.copyReadLine S enc fuel with
    | .error (.copy e) => .ok ([], .error e (lineno + 1))
    | .error e => .error e
    | .ok (b, done) =>
      if done ≠ .newline ∧ b.lineBuf = [] then .ok ([], if done = .marker then .marker else .eof)
      else
        match copyLines fuel (lineno + 1) b with
        | .error e => .error e
        | .ok r => .ok ((lineno + 1, b.lineBuf) :: r.1, r.2)

variable {S enc} {b b' : Buffers σ} {rem : List UInt8}

/-- The buffers stand for the bytes `rem` still to be read; what is not verified yet is valid. -/
structure Loaded (S : Source σ) (enc : Encoding) (b : Buffers σ) (rem : List UInt8) : Prop where
  ok : S.Ok b.src
  index_le : b.inputIndex ≤ b.inputLen
  len_le : b.inputLen ≤ b.raw.length
  rem : b.raw.drop b.inputIndex ++ S.rest b.src = rem
  valid : enc.Valid (b.raw.drop b.inputLen ++ S.rest b.src)
  rawEof : b.rawEof = true → S.rest b.src = []
  inputEof : b.inputEof = true → b.rawEof = true ∧ b.inputLen = b.raw.length
  noError : b.inputError = false

/-- Between loads only a cut-off character is not verified. -/
structure Ready (S : Source σ) (enc : Encoding) (b : Buffers σ) (rem : List UInt8) : Prop
    extends Loaded S enc b rem where
  unverified : b.raw.length < b.inputLen + 4

/-- Two states with the same line so far. -/
def SameLine (b b' : Buffers σ) : Prop := b'.eol = b.eol ∧ b'.lineBuf = b.lineBuf

/-- At the end of the input everything is loaded. -/
theorem Loaded.at_eof (h : Loaded S enc b rem) (heof : b.inputEof = true) :
    rem = b.raw.drop b.inputIndex ∧ b.inputLen = b.raw.length := by
  obtain ⟨hraw, hlen⟩ := h.inputEof heof
  refine ⟨?_, hlen⟩
  rw [← h.rem, h.rawEof hraw, append_nil]

/-- More bytes come from the source, or it is found to be at its end. -/
theorem Loaded.loadRaw (h : Loaded S enc b rem) (hindex : b.rawIndex = b.inputIndex)
    (hroom : b.raw.length - b.inputIndex < rawBufSize) (hraw : b.rawEof = false) :
    Loaded S enc (b.copyLoadRawBuf S) rem ∧
      (S.rest (b.copyLoadRawBuf S).src).length + (if (b.copyLoadRawBuf S).rawEof then 0 else 1) <
        (S.rest b.src).length + 1 := by
  have hkept : (b.raw.drop b.inputIndex).length < rawBufSize := by
    rw [length_drop]
    exact hroom
  rw [copyLoadRawBuf, hindex]
  generalize hgot : S.pull b.src (rawBufSize - (b.raw.drop b.inputIndex).length) = got
  have hrest : S.rest b.src = got.1 ++ S.rest got.2 := by
    rw [← hgot]
    exact S.rest_eq _ _ h.ok
  have hend : got.1 = [] → S.rest b.src = [] := by
    rw [← hgot]
    exact S.ended _ _ h.ok (by omega)
  have hok : S.Ok got.2 := by
    rw [← hgot]
    exact S.ok_pull _ _ h.ok
  have hlen := h.len_le
  have hidx := h.index_le
  constructor
  · exact
      { ok := hok
        index_le := Nat.zero_le _
        len_le := by
          simp only [length_append, length_drop]
          omega
        rem := by
          simp only [drop_zero]
          rw [append_assoc, ← hrest]
          exact h.rem
        valid := by
          have hvalid := h.valid
          have hadd : b.inputIndex + (b.inputLen - b.inputIndex) = b.inputLen := by omega
          simp only
          rw [drop_append_of_le_length (by rw [length_drop]; omega), drop_drop, hadd, append_assoc, ← hrest]
          exact hvalid
        rawEof := by
          simp only [hraw, Bool.false_or, List.isEmpty_iff]
          intro hnil
          rw [hrest, hnil] at hend
          exact hend rfl
        inputEof := by
          intro heof
          exact absurd (h.inputEof heof).1 (Bool.eq_false_iff.mp hraw)
        noError := h.noError }
  · simp only [hraw, Bool.false_or]
    rcases hcase : got.1 with _ | ⟨x, xs⟩
    · rw [hrest, hcase]
      simp
    · rw [hrest, hcase, length_append, length_cons]
      simp only [isEmpty_cons, Bool.false_eq_true, if_false]
      omega

/-- Where the bytes that are loaded give no more, the source is asked, and there is room for what
it gives. -/
theorem Loaded.convert (h : Loaded S enc b rem) :
    (Ready S enc (b.copyConvertBuf enc) rem ∧ SameLine b (b.copyConvertBuf enc) ∧
        (b.copyConvertBuf enc).inputIndex = b.inputIndex ∧
        (b.inputLen < (b.copyConvertBuf enc).inputLen ∨
          (b.copyConvertBuf enc).inputEof = true ∧ (b.copyConvertBuf enc).inputLen = b.inputLen)) ∨
      (b.copyConvertBuf enc = b ∧ b.rawEof = false ∧ b.raw.length < b.inputLen + 4) := by
  have hlen := h.len_le
  rw [copyConvertBuf]
  by_cases hall : b.raw.length - b.inputLen = 0
  · rw [if_pos hall]
    by_cases hraw : b.rawEof = true
    · left
      rw [if_pos hraw]
      refine ⟨?_, ⟨rfl, rfl⟩, rfl, .inr ⟨rfl, rfl⟩⟩
      exact { h with inputEof := fun _ => ⟨hraw, by simp only; omega⟩, unverified := by simp only; omega }
    · right
      rw [if_neg hraw]
      exact ⟨rfl, Bool.eq_false_iff.mpr hraw, by omega⟩
  · rw [if_neg hall]
    obtain ⟨hle, hvalid, hrest⟩ :=
      Encoding.verifymbstr_verified h.valid (prefix_append (b.raw.drop b.inputLen) (S.rest b.src))
    generalize enc.verifymbstr (b.raw.drop b.inputLen) = n at hle hvalid hrest ⊢
    rw [length_append, length_drop] at hrest
    rw [length_drop] at hle
    have hmax := enc.maxLength_le
    obtain rfl | hn := eq_or_ne n 0
    · have hsrc : (S.rest b.src).length ≠ 0 := by omega
      have hraw : b.rawEof = false := by
        apply Bool.eq_false_iff.mpr
        intro heof
        rw [h.rawEof heof] at hsrc
        exact hsrc rfl
      right
      refine ⟨?_, hraw, by omega⟩
      simp only [if_true]
      rw [hraw, Bool.false_or, if_neg (by rw [decide_eq_true_eq]; omega)]
    · left
      rw [if_neg hn]
      refine ⟨?_, ⟨rfl, rfl⟩, rfl, .inl (by simp only; omega)⟩
      rw [drop_append_of_le_length (by rw [length_drop]; exact hle), drop_drop] at hvalid
      exact
        { h with
          index_le := Nat.le_trans h.index_le (Nat.le_add_right _ _), len_le := by simp only; omega, valid := hvalid
          inputEof := fun heof => absurd (h.inputEof heof).2 (by omega), unverified := by simp only; omega }

/-- Loading stops with more verified bytes than before, or at the end of the input. -/
def Fills (S : Source σ) (enc : Encoding) (nbytes : Nat) (rem : List UInt8) (b b' : Buffers σ) : Prop :=
  Ready S enc b' rem ∧ SameLine b b' ∧
    (nbytes < b'.inputLen - b'.inputIndex ∨ b'.inputEof = true ∧ b'.inputLen - b'.inputIndex = nbytes)

theorem Loaded.loadLoop (n : Nat) (hn : (S.rest b.src).length + (if b.rawEof then 0 else 1) < n)
    (h : Loaded S enc b rem) (hindex : b.rawIndex = b.inputIndex) (hfew : b.inputLen - b.inputIndex ≤ 3) :
    ∃ b' N, (∀ fuel, N ≤ fuel → Buffers.loadLoop S enc (b.inputLen - b.inputIndex) fuel b = .ok b') ∧
      Fills S enc (b.inputLen - b.inputIndex) rem b b' := by
  induction n generalizing b with
  | zero => cases hn
  | succ n ih =>
    have hidx := h.index_le
    rcases h.convert with ⟨hready, hsame, hi, hmore⟩ | ⟨heq, hraw, hunv⟩
    · refine ⟨b.copyConvertBuf enc, 1, ?_, hready, hsame, ?_⟩
      · intro fuel hfuel
        obtain ⟨fuel, rfl⟩ : ∃ f, fuel = f + 1 := ⟨fuel - 1, by omega⟩
        rw [Buffers.loadLoop]
        simp only [hready.noError]
        rcases hmore with hlt | ⟨heof, hlen⟩
        · rw [if_pos (by omega)]
        · simp [heof]
      · rcases hmore with hlt | ⟨heof, hlen⟩
        · omega
        · right
          exact ⟨heof, by omega⟩
    · obtain ⟨hload, hless⟩ := h.loadRaw hindex (by rw [rawBufSize]; omega) hraw
      rw [hraw] at hn
      simp only [Bool.false_eq_true, if_false] at hn
      have hrange : (b.copyLoadRawBuf S).inputLen - (b.copyLoadRawBuf S).inputIndex = b.inputLen - b.inputIndex := rfl
      obtain ⟨b', N, hrun, hfills⟩ := ih (by omega) hload rfl (by rw [hrange]; exact hfew)
      refine ⟨b', N + 1, ?_, hfills⟩
      intro fuel hfuel
      obtain ⟨fuel, rfl⟩ : ∃ f, fuel = f + 1 := ⟨fuel - 1, by omega⟩
      have hnot : b.inputEof = false :=
        Bool.eq_false_iff.mpr fun heof => Bool.eq_false_iff.mp hraw (h.inputEof heof).1
      rw [Buffers.loadLoop, heq]
      simp only [h.noError, hnot]
      rw [if_neg (Nat.lt_irrefl _)]
      exact hrun fuel (by omega)

theorem Ready.load (h : Ready S enc b rem) (hfew : b.inputLen - b.inputIndex ≤ 3) :
    ∃ b' N, (∀ fuel, N ≤ fuel → b.copyLoadInputBuf S enc fuel = .ok b') ∧
      Fills S enc (b.inputLen - b.inputIndex) rem b b' := by
  have hloaded : Loaded S enc { b with rawIndex := b.inputIndex } rem := { h with }
  exact hloaded.loadLoop _ (lt_succ_self _) rfl hfew

/-- With enough fuel the run gives `r`. -/
def Settles {α : Type} (run : Nat → α) (r : α) : Prop := ∃ N, ∀ fuel, N ≤ fuel → run fuel = r

theorem settles_succ {β : Type} {run : Nat → α} {prev : Nat → β} {x : β} {r : α} (h : Settles prev x)
    (hrun : ∃ N, ∀ fuel, N ≤ fuel → prev fuel = x → run (fuel + 1) = r) : Settles run r := by
  obtain ⟨N, hN⟩ := h
  obtain ⟨M, hM⟩ := hrun
  refine ⟨max N M + 1, ?_⟩
  intro fuel hfuel
  obtain ⟨fuel, rfl⟩ : ∃ f, fuel = f + 1 := ⟨fuel - 1, by omega⟩
  exact hM fuel (by omega) (hN fuel (by omega))

variable {v : Locals} {acc : List UInt8}

/-- In the middle of a line: `acc` is passed, `rem` is to come. -/
structure Scanning (S : Source σ) (enc : Encoding) (b : Buffers σ) (v : Locals) (acc rem : List UInt8) : Prop where
  ready : Ready S enc b (b.raw.drop b.inputIndex ++ S.rest b.src)
  ptr_ge : b.inputIndex ≤ v.ptr
  ptr_le : v.ptr ≤ v.len
  len : v.len = b.inputLen
  acc : acc = b.lineBuf ++ (b.raw.take v.ptr).drop b.inputIndex
  rem : rem = b.raw.drop v.ptr ++ S.rest b.src
  needData : v.needData = true → v.len - v.ptr ≤ 3 ∧ v.hitEof = false
  hitEof : v.hitEof = true → b.inputEof = true

section

variable (h : Scanning S enc b v acc rem)
include h

/-- What is passed moves to the line buffer. -/
theorem Scanning.refill : Ready S enc (b.refillLinebuf v.ptr) rem ∧ (b.refillLinebuf v.ptr).lineBuf = acc ∧
      (b.refillLinebuf v.ptr).eol = b.eol ∧ (b.refillLinebuf v.ptr).inputIndex = v.ptr ∧
      (b.refillLinebuf v.ptr).inputLen = v.len ∧ (b.refillLinebuf v.ptr).inputEof = b.inputEof := by
  have hge := h.ptr_ge
  have hle := h.ptr_le
  have hlen := h.len
  rw [refillLinebuf]
  by_cases hlt : b.inputIndex < v.ptr
  · rw [if_pos hlt]
    refine ⟨?_, h.acc.symm, rfl, rfl, hlen.symm, rfl⟩
    exact { h.ready with index_le := by simp only; omega, rem := h.rem.symm }
  · have heq : b.inputIndex = v.ptr := by omega
    rw [if_neg hlt]
    refine ⟨?_, ?_, rfl, heq, hlen.symm, rfl⟩
    · have hready := h.ready
      rw [heq, ← h.rem] at hready
      exact hready
    · rw [h.acc, heq, drop_eq_nil_of_le (length_take_le _ _), append_nil]

theorem Scanning.ptr_le_raw : v.len ≤ b.raw.length := by
  rw [h.len]
  exact h.ready.len_le

/-- The passed bytes go on with the next ones. -/
theorem Scanning.advance (hno : v.needData = false) (hn : n ≤ v.len - v.ptr) :
    Scanning S enc b { v with ptr := v.ptr + n } (acc ++ rem.take n) (rem.drop n) := by
  have hge := h.ptr_ge
  have hle := h.ptr_le
  have hraw := h.ptr_le_raw
  have hfront : rem.take n = (b.raw.drop v.ptr).take n := by
    rw [h.rem, take_append_of_le_length (by rw [length_drop]; omega)]
  refine ⟨h.ready, by simp only; omega, by simp only; omega, h.len, ?_, ?_, ?_, h.hitEof⟩
  · rw [h.acc, hfront, append_assoc, take_add, drop_append_of_le_length]
    rw [length_take]
    omega
  · rw [h.rem, drop_append_of_le_length (by rw [length_drop]; omega), drop_drop]
  · intro hneed
    rw [hno] at hneed
    cases hneed

theorem Scanning.rem_getD (hk : v.ptr + k < b.raw.length) : b.inputByte (v.ptr + k) = rem.getD k 0 := by
  rw [inputByte, h.rem, getD_eq_getElem?_getD, getD_eq_getElem?_getD,
    getElem?_append_left (by rw [length_drop]; omega), getElem?_drop]

theorem Scanning.alone : (b.lineBuf.isEmpty && v.ptr ≤ b.inputIndex) = acc.isEmpty := by
  have hle := h.ptr_le
  have hraw := h.ptr_le_raw
  have hnil : (b.raw.take v.ptr).drop b.inputIndex = [] ↔ v.ptr ≤ b.inputIndex := by
    rw [drop_eq_nil_iff, length_take]
    omega
  rw [Bool.eq_iff_iff, List.isEmpty_iff, h.acc, append_eq_nil_iff, hnil, Bool.and_eq_true,
    List.isEmpty_iff, decide_eq_true_eq]

/-- The act in the buffer is the act on the stream, unless it needs bytes that are not loaded. -/
theorem Scanning.act (hlt : v.ptr < v.len) : (b.act v = .refill ∨ b.act v = streamAct b.eol acc rem) ∧
      Within (v.len - v.ptr) v.hitEof acc.isEmpty (b.act v) := by
  have hraw := h.ptr_le_raw
  have hrem : v.len - v.ptr ≤ rem.length := by
    rw [h.rem, length_append, length_drop]
    omega
  rw [Buffers.act, h.alone]
  have hbyte : ∀ k, k < v.len - v.ptr → b.inputByte (v.ptr + k) = rem.getD k 0 := fun k hk => h.rem_getD (by omega)
  cases heof : v.hitEof with
  | false => exact ⟨scanAct_window (by omega) hbyte hrem, scanAct_within (by omega) nofun⟩
  | true =>
    obtain ⟨hall, hlen⟩ := h.ready.at_eof (h.hitEof heof)
    have hsrc : S.rest b.src = [] := h.ready.rawEof (h.ready.inputEof (h.hitEof heof)).1
    have hrem' : rem = b.raw.drop v.ptr := by rw [h.rem, hsrc, append_nil]
    have hsame : (fun k => b.inputByte (v.ptr + k)) = fun k => rem.getD k 0 := by
      funext k
      rw [inputByte, hrem', getD_eq_getElem?_getD, getD_eq_getElem?_getD, getElem?_drop]
    have havail : v.len - v.ptr = rem.length := by rw [hrem', length_drop, h.len, hlen]
    rw [hsame, havail]
    refine ⟨.inr rfl, scanAct_within (by omega) ?_⟩
    intro _
    rw [getD_eq_getElem?_getD, getElem?_eq_none (Nat.le_refl _), Option.getD_none]

end

/-- The rounds that a line can still take. -/
def cost (v : Locals) (rem : List UInt8) : Nat :=
  8 * rem.length + 2 * (if v.hitEof then 0 else 5 - min 4 (v.len - v.ptr)) + (if v.needData then 0 else 1)

section

variable (h : Scanning S enc b v acc rem)
include h

/-- Bytes are there for the next round, or the input is at its end. -/
theorem Scanning.ensure :
    (∃ b', Settles (fun fuel => b.ensure S enc fuel v) (.ok (b', none)) ∧ rem = [] ∧ Ready S enc b' [] ∧
        b'.lineBuf = acc) ∨
      ∃ b' v', Settles (fun fuel => b.ensure S enc fuel v) (.ok (b', some v')) ∧
        Scanning S enc b' v' acc rem ∧ b'.eol = b.eol ∧ v'.ptr < v'.len ∧ v'.needData = false ∧
        cost v' rem ≤ cost v rem := by
  by_cases hload : v.len ≤ v.ptr ∨ v.needData = true
  · obtain ⟨hready, hline, heol, hidx, hlen, heof⟩ := h.refill
    have hfew : v.len - v.ptr ≤ 3 := by
      rcases hload with hle | hneed
      · omega
      · exact (h.needData hneed).1
    obtain ⟨b', N, hrun, hready', hsame, hfill⟩ := hready.load (by rw [hidx, hlen]; exact hfew)
    have hens : ∀ x, (if b'.inputLen - b'.inputIndex = 0 then Except.ok (b', none)
        else .ok (b', some ⟨b'.inputIndex, b'.inputLen, false, b'.inputEof⟩)) = x →
        Settles (fun fuel => b.ensure S enc fuel v) x := by
      intro x hx
      refine ⟨N, fun fuel hfuel => ?_⟩
      simp only [Buffers.ensure]
      rw [if_pos hload, hrun fuel hfuel]
      exact hx
    have hidx' := hready'.index_le
    by_cases hnone : b'.inputLen - b'.inputIndex = 0
    · -- nothing was loaded, so this is the end
      left
      have heof' : b'.inputEof = true := by
        rcases hfill with hlt | ⟨heof', -⟩
        · omega
        · exact heof'
      obtain ⟨hrem, hall⟩ := hready'.at_eof heof'
      have hnil : rem = [] := by
        rw [hrem, drop_eq_nil_iff]
        omega
      refine ⟨b', hens _ (if_pos hnone), hnil, ?_, hsame.2.trans hline⟩
      rw [← hnil]
      exact hready'
    · right
      refine ⟨b', _, hens _ (if_neg hnone), ?_, hsame.1.trans heol, by simp only; omega, rfl, ?_⟩
      · exact
          { ready := by
              have hr := hready'
              rw [← hready'.rem] at hr
              exact hr
            ptr_ge := Nat.le_refl _, ptr_le := hidx', len := rfl
            acc := by
              rw [drop_eq_nil_of_le (length_take_le _ _), append_nil, hsame.2, hline]
            rem := hready'.rem.symm, needData := nofun, hitEof := id }
      · have hmore : v.hitEof = false := by
          cases hv : v.hitEof with
          | false => rfl
          | true =>
            -- the end was reached before, with nothing left of the window
            exfalso
            have hle : v.len ≤ v.ptr := by
              rcases hload with hle | hneed
              · exact hle
              · rw [(h.needData hneed).2] at hv
                cases hv
            obtain ⟨hrem, hall⟩ := hready.at_eof (heof.trans (h.hitEof hv))
            have hgone : rem = [] := by
              rw [hrem, drop_eq_nil_iff]
              omega
            have hnil := (append_eq_nil_iff.mp (hready'.rem.trans hgone)).1
            rw [drop_eq_nil_iff] at hnil
            have := hready'.len_le
            omega
        simp only [cost, hmore, Bool.false_eq_true, if_false]
        cases heof' : b'.inputEof with
        | true =>
          simp only [if_true]
          omega
        | false =>
          rcases hfill with hlt | ⟨hfalse, -⟩
          · simp only [Bool.false_eq_true, if_false]
            omega
          · rw [heof'] at hfalse
            cases hfalse
  · right
    have hno : v.needData = false := Bool.eq_false_iff.mpr fun hneed => hload (.inr hneed)
    refine ⟨b, v, ⟨0, fun fuel _ => ?_⟩, h, rfl, ?_, hno, Nat.le_refl _⟩
    · simp only [Buffers.ensure]
      rw [if_neg hload]
    · exact Nat.lt_of_not_le (fun hle => hload (.inl hle))

/-- What the outcome of a line means for the buffers. -/
def Delivers (S : Source σ) (enc : Encoding) (r : Except Failure (Buffers σ × LineEnd)) : Outcome → Prop
  | .line l rest eol => ∃ b, r = .ok (b, .newline) ∧ b.lineBuf = l ∧ b.eol = eol ∧ Ready S enc b rest
  | .eof l => ∃ b, r = .ok (b, .eof) ∧ b.lineBuf = l ∧ Ready S enc b []
  | .marker => ∃ b, r = .ok (b, .marker) ∧ b.lineBuf = []
  | .error e => r = .error (.copy e)

theorem Scanning.setEol (eol) : Scanning S enc { b with eol := eol } v acc rem :=
  { h with
    ready := { h.ready with rem := rfl } }

theorem Scanning.setNeed (hfew : v.len - v.ptr ≤ 3) (heof : v.hitEof = false) :
    Scanning S enc b { v with needData := true } acc rem :=
  { h with
    needData := fun _ => ⟨hfew, heof⟩ }

/-- The rounds of the loop that the act at hand ends, or passes on. -/
theorem Scanning.ends (hlt : v.ptr < v.len) (hno : v.needData = false) :
    (∃ r, Delivers S enc r (readText b.eol acc rem) ∧
        ∀ fuel b₀ v₀, b₀.ensure S enc fuel v₀ = .ok (b, some v) → Buffers.textLoop S enc (fuel + 1) b₀ v₀ = r) ∨
      ∃ v' acc' rem', Scanning S enc b v' acc' rem' ∧ readText b.eol acc rem = readText b.eol acc' rem' ∧
        cost v' rem' < cost v rem ∧
        ∀ fuel b₀ v₀, b₀.ensure S enc fuel v₀ = .ok (b, some v) →
          Buffers.textLoop S enc (fuel + 1) b₀ v₀ = Buffers.textLoop S enc fuel b v' := by
  obtain ⟨hact, hwithin⟩ := h.act hlt
  have hraw := h.ptr_le_raw
  have hrem : v.len - v.ptr ≤ rem.length := by
    rw [h.rem, length_append, length_drop]
    omega
  obtain ⟨c, rest, rfl⟩ : ∃ c rest, rem = c :: rest :=
    exists_cons_of_ne_nil (fun hnil => by rw [hnil, length_nil] at hrem; omega)
  have hcost : ∀ k, 1 ≤ k → k ≤ 2 → k ≤ v.len - v.ptr →
      cost { v with ptr := v.ptr + k } ((c :: rest).drop k) < cost v (c :: rest) := by
    simp only [cost, length_drop]
    split_ifs <;> omega
  by_cases hrefill : b.act v = .refill
  · right
    rw [hrefill] at hwithin
    refine ⟨_, _, _, h.setNeed hwithin.1 hwithin.2, rfl, ?_, ?_⟩
    · simp only [cost, hno]
      simp
    · intro fuel b₀ v₀ hens
      rw [Buffers.textLoop, hens]
      simp [hrefill]
  rw [readText.eq_def b.eol acc (c :: rest)]
  simp only [← hact.resolve_left hrefill]
  cases hcase : b.act v with
  | refill => exact absurd hcase hrefill
  | skip =>
    right
    refine ⟨_, _, _, h.advance hno (n := 1) (by omega), rfl, hcost 1 (by omega) (by omega) (by omega), ?_⟩
    intro fuel b₀ v₀ hens
    rw [Buffers.textLoop, hens]
    simp [hcase]
  | skipPair =>
    right
    rw [hcase] at hwithin
    obtain ⟨c₂, rest, rfl⟩ : ∃ c₂ rest', rest = c₂ :: rest' :=
      exists_cons_of_ne_nil (fun hnil => by
        have hlen := Nat.le_trans hwithin hrem
        rw [hnil] at hlen
        exact absurd hlen (by simp))
    refine ⟨_, _, _, h.advance hno (n := 2) hwithin, rfl, hcost 2 (by omega) (by omega) hwithin, ?_⟩
    intro fuel b₀ v₀ hens
    rw [Buffers.textLoop, hens]
    simp [hcase]
  | fail e =>
    left
    refine ⟨.error (.copy e), rfl, ?_⟩
    intro fuel b₀ v₀ hens
    rw [Buffers.textLoop, hens]
    simp [hcase]
  | line n e =>
    left
    rw [hcase] at hwithin
    obtain ⟨hready, hline, heol, -⟩ := ((h.advance hno hwithin).setEol e).refill
    refine ⟨.ok ({ b with eol := e }.refillLinebuf (v.ptr + n), .newline), ?_, ?_⟩
    · exact ⟨_, rfl, hline, heol, hready⟩
    · intro fuel b₀ v₀ hens
      rw [Buffers.textLoop, hens]
      simp [hcase]
  | marker n =>
    left
    rw [hcase] at hwithin
    have hacc := h.acc
    rw [List.isEmpty_iff.mp hwithin] at hacc
    refine ⟨.ok ({ b with inputIndex := v.ptr + n }.refillLinebuf (v.ptr + n), .marker), ?_, ?_⟩
    · refine ⟨_, rfl, ?_⟩
      rw [refillLinebuf, if_neg (Nat.lt_irrefl _)]
      exact (append_eq_nil_iff.mp hacc.symm).1
    · intro fuel b₀ v₀ hens
      rw [Buffers.textLoop, hens]
      simp [hcase]
  | lastBackslash =>
    left
    rw [hcase] at hwithin
    obtain ⟨hready, hline, -⟩ := (h.advance hno (n := 1) (by omega)).refill
    have hlast : rest = [] := by
      obtain ⟨hall, hlen⟩ := h.ready.at_eof (h.hitEof hwithin.2)
      have hsrc : S.rest b.src = [] := h.ready.rawEof (h.ready.inputEof (h.hitEof hwithin.2)).1
      have hlength := congrArg List.length h.rem
      rw [hsrc, append_nil, length_drop, ← hlen, ← h.len, length_cons] at hlength
      exact eq_nil_of_length_eq_zero (by have := hwithin.1; omega)
    subst hlast
    refine ⟨.ok (b.refillLinebuf (v.ptr + 1), .eof), ?_, ?_⟩
    · exact ⟨_, rfl, hline, hready⟩
    · intro fuel b₀ v₀ hens
      rw [Buffers.textLoop, hens]
      simp [hcase]

end

theorem Scanning.textLoop (n : Nat) (hn : cost v rem < n) (h : Scanning S enc b v acc rem) :
    ∃ r, Settles (fun fuel => Buffers.textLoop S enc fuel b v) r ∧ Delivers S enc r (readText b.eol acc rem) := by
  induction n generalizing b v acc rem with
  | zero => cases hn
  | succ n ih =>
    rcases h.ensure with ⟨b', hens, rfl, hready, hline⟩ | ⟨b', v', hens, hscan, heol, hlt, hno, hcost⟩
    · refine ⟨.ok (b', .eof), settles_succ hens ⟨0, fun fuel _ hfuel => ?_⟩, ?_⟩
      · rw [Buffers.textLoop, hfuel]
      · exact ⟨b', rfl, hline, hready⟩
    · rw [← heol]
      rcases hscan.ends hlt hno with ⟨r, hr, hrun⟩ | ⟨v'', acc', rem', hnext, hread, hless, hrun⟩
      · exact ⟨r, settles_succ hens ⟨0, fun fuel _ hfuel => hrun fuel b v hfuel⟩, hr⟩
      · obtain ⟨r, ⟨N, hN⟩, hr⟩ := ih (by omega) hnext
        rw [hread]
        refine ⟨r, settles_succ hens ⟨N, fun fuel hle hfuel => ?_⟩, hr⟩
        rw [hrun fuel b v hfuel]
        exact hN fuel hle

/-- The start of a line. -/
theorem Ready.scanning (h : Ready S enc b rem) : Scanning S enc { b with lineBuf := [] }
      { ptr := b.inputIndex, len := b.inputLen, needData := false, hitEof := false } [] rem where
  ready := { h with rem := rfl }
  ptr_ge := Nat.le_refl _
  ptr_le := h.index_le
  len := rfl
  acc := by simp
  rem := h.rem.symm
  needData := nofun
  hitEof := nofun

theorem Ready.strip_line (h : Ready S enc b rem) : Ready S enc { b with lineBuf := strip eol b.lineBuf } rem :=
  { h with }

/-- The outcome of a line, with its newline taken off. -/
def stripped : Outcome → Outcome
  | .line l rest eol => .line (strip eol l) rest eol
  | o => o

theorem Ready.readLine (h : Ready S enc b rem) :
    ∃ r, Settles (fun fuel => b.copyReadLine S enc fuel) r ∧ Delivers S enc r (stripped (readText b.eol [] rem)) := by
  obtain ⟨r, ⟨N, hN⟩, hr⟩ := h.scanning.textLoop _ (lt_succ_self _)
  have hrun : ∀ fuel, N ≤ fuel → { b with lineBuf := [] }.copyReadLineText S enc fuel = r := hN
  have hsettle : ∀ x, (match r with
      | .error e => .error e
      | .ok (b, .newline) => .ok ({ b with lineBuf := strip b.eol b.lineBuf }, .newline)
      | .ok (b, done) => .ok (b, done)) = x → Settles (fun fuel => b.copyReadLine S enc fuel) x := by
    intro x hx
    refine ⟨N, fun fuel hfuel => ?_⟩
    simp only [copyReadLine]
    rw [hrun fuel hfuel]
    exact hx
  generalize readText b.eol [] rem = o at hr
  cases o with
  | line =>
    obtain ⟨b', rfl, rfl, rfl, hready⟩ := hr
    exact ⟨_, hsettle _ rfl, _, rfl, rfl, rfl, hready.strip_line⟩
  | eof =>
    obtain ⟨b', rfl, rfl, hready⟩ := hr
    exact ⟨_, hsettle _ rfl, _, rfl, rfl, hready⟩
  | marker =>
    obtain ⟨b', rfl, hnil⟩ := hr
    exact ⟨_, hsettle _ rfl, _, rfl, hnil⟩
  | error =>
    subst hr
    exact ⟨_, hsettle _ rfl, rfl⟩

/-- A line that is handed over, and the lines behind it. -/
theorem copyLines_cons {r : List (Nat × List UInt8) × Ending}
    (hline : Settles (fun fuel => b.copyReadLine S enc fuel) (.ok (b', done)))
    (hdone : ¬ (done ≠ .newline ∧ b'.lineBuf = []))
    (hrest : Settles (fun fuel => copyLines S enc fuel (lineno + 1) b') (.ok r)) :
    Settles (fun fuel => copyLines S enc fuel lineno b) (.ok ((lineno + 1, b'.lineBuf) :: r.1, r.2)) := by
  obtain ⟨N, hN⟩ := hrest
  refine settles_succ hline ⟨N, fun fuel hle hfuel => ?_⟩
  simp only at hfuel hN
  simp only [copyLines, hfuel]
  rw [if_neg hdone, hN fuel hle]

theorem copyLines_end (hline : Settles (fun fuel => b.copyReadLine S enc fuel) (.ok (b', done)))
    (hdone : done ≠ .newline) (hnil : b'.lineBuf = []) :
    Settles (fun fuel => copyLines S enc fuel lineno b) (.ok ([], if done = .marker then .marker else .eof)) := by
  refine settles_succ hline ⟨0, fun fuel _ hfuel => ?_⟩
  simp only [copyLines, hfuel]
  rw [if_pos ⟨hdone, hnil⟩]

theorem Ready.lines_nil (h : Ready S enc b []) (lineno : Nat) :
    Settles (fun fuel => copyLines S enc fuel lineno b) (.ok ([], .eof)) := by
  obtain ⟨r, hsettle, b', rfl, hnil, -⟩ := h.readLine
  exact copyLines_end hsettle (by simp) hnil

/-- The buffered reader reads the lines of the stream. -/
theorem Ready.lines (n : Nat) (hn : rem.length < n) (h : Ready S enc b rem) (lineno : Nat) :
    Settles (fun fuel => copyLines S enc fuel lineno b) (.ok (readAll b.eol lineno rem)) := by
  induction n generalizing b rem lineno with
  | zero => cases hn
  | succ n ih =>
    obtain ⟨r, hsettle, hr⟩ := h.readLine
    cases ho : readText b.eol [] rem with
    | line =>
      rw [ho] at hr
      obtain ⟨b', rfl, hline, rfl, hready⟩ := hr
      have hlt := readText_length ho
      rw [readAll_line ho, ← hline]
      exact copyLines_cons hsettle (by simp) (ih (by omega) hready (lineno + 1))
    | eof =>
      rw [ho] at hr
      obtain ⟨b', rfl, rfl, hready⟩ := hr
      rw [readAll, readFuel, ho]
      cases hl : b'.lineBuf with
      | nil => exact copyLines_end hsettle (by simp) hl
      | cons =>
        simp only
        rw [← hl]
        exact copyLines_cons hsettle (by simp [hl]) (hready.lines_nil (lineno + 1))
    | marker =>
      rw [ho] at hr
      obtain ⟨b', rfl, hnil⟩ := hr
      rw [readAll, readFuel, ho]
      exact copyLines_end hsettle (by simp) hnil
    | error e =>
      rw [ho] at hr
      obtain rfl : r = .error (.copy e) := hr
      rw [readAll, readFuel, ho]
      refine settles_succ hsettle ⟨0, fun fuel _ hfuel => ?_⟩
      simp [copyLines, hfuel]

end Buffers

end CopyReadLine
