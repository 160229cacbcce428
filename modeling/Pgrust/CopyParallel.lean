import Mathlib.Algebra.Order.BigOperators.Group.Finset
import Pgrust.CopySegmentator

/-!
Parallel COPY as a system of a leader and workers. The leader reads and segments the stream,
publishes chunks and commits their encoded row groups in order; workers claim chunks, parse them and
leave a result or an error. Whatever the interleaving, the leader commits the results of the chunks
in order, or raises the error of the lowest chunk that fails.
-/

namespace CopyParallel

open CopyText CopyLineScan CopySegmentator List
open Function (update exists_update_iff update_apply update_self update_of_ne)

section Producer

variable {rpc : Nat} {bufs reads : List (List UInt8)} {seg : Segmentator} {cut : List ChunkDesc} {buf : List UInt8}

theorem step_eol {s : Scan} {b : UInt8} (h : s.eol ≠ .unknown) : (s.step rpc b).eol = s.eol := by
  have hresolve : s.resolve rpc b = s := if_neg (fun hu => h hu.1)
  rw [Scan.step, hresolve]
  by_cases heoc : s.eoc = true
  · rw [if_pos heoc]
  · rw [if_neg heoc, Scan.absorb, if_neg h]
    by_cases hend : EndsAt s.eol s.line b
    · rw [if_pos hend, Scan.close_eol]
    · rw [if_neg hend]

/-- The style of the newlines stays once it is decided. -/
theorem run_eol {s : Scan} (h : s.eol ≠ .unknown) (w : List UInt8) : (s.run rpc w).eol = s.eol := by
  induction w generalizing s with
  | nil => rfl
  | cons b w ih =>
    have hstep := @step_eol rpc s b h
    rw [run_cons, ih (by rw [hstep]; exact h), hstep]

/-- The segmentator and the chunks it has cut, with the buffers `reads` of the stream to come. -/
def Cutting (rpc : Nat) (bufs : List (List UInt8)) (seg : Segmentator) (cut : List ChunkDesc)
    (reads : List (List UInt8)) : Prop :=
  ∃ fed, bufs = fed ++ reads ∧ (Segmentator.new rpc).feedAll [] fed = (seg, cut)

theorem cutting_new : Cutting rpc bufs (Segmentator.new rpc) [] bufs := ⟨[], rfl, rfl⟩

theorem Cutting.feed (h : Cutting rpc bufs seg cut (buf :: reads)) (heoc : seg.eoc = false) :
    Cutting rpc bufs (seg.feed buf []).1 (cut ++ (seg.feed buf []).2.1) reads := by
  obtain ⟨fed, hbufs, hfed⟩ := h
  refine ⟨fed ++ [buf], by rw [hbufs, append_assoc]; rfl, ?_⟩
  have hone := @feed_append buf cut [] seg
  rw [append_nil] at hone
  rw [feedAll_append, hfed, Segmentator.feedAll, if_neg (by simp [heoc]), hone]
  rfl

section

variable (h : Cutting rpc bufs seg cut reads)
include h

/-- The buffers to come only add chunks. -/
theorem Cutting.rest : segment rpc bufs = (((seg.feedAll [] reads).1.finish []).1,
      cut ++ ((seg.feedAll [] reads).2 ++ ((seg.feedAll [] reads).1.finish []).2)) := by
  obtain ⟨fed, rfl, hfed⟩ := h
  have hout := @feedAll_out cut [] seg reads
  rw [append_nil] at hout
  rw [CopySegmentator.segment, feedAll_append, hfed]
  simp only [hout]
  have hfin := @finish_append (cut ++ (seg.feedAll [] reads).2) [] (seg.feedAll [] reads).1
  rw [append_nil] at hfin
  rw [hfin, append_assoc]

theorem Cutting.isPrefix : cut <+: (segment rpc bufs).2 := by
  rw [h.rest]
  exact prefix_append _ _

/-- At the end of the input the rest is the last chunk. -/
theorem Cutting.finish (hend : reads = [] ∨ seg.eoc = true) : cut ++ (seg.finish []).2 = (segment rpc bufs).2 := by
  have hstop : seg.feedAll [] reads = (seg, []) := by
    cases reads with
    | nil => rfl
    | cons =>
      rcases hend with hnil | heoc
      · cases hnil
      · rw [Segmentator.feedAll, if_pos heoc]
  rw [h.rest, hstop]
  rfl

end

theorem finish_eol : (seg.finish []).1.eol = seg.eol := by
  rw [Segmentator.finish, Segmentator.cutChunk]
  split_ifs <;> rfl

theorem finish_length : (seg.finish []).2.length ≤ 1 := by
  rw [Segmentator.finish, Segmentator.cutChunk]
  split_ifs <;> simp

/-- Once a chunk was cut the segmentator has the style that it ends with. -/
theorem Cutting.style (h : Cutting rpc bufs seg cut reads) (hrpc : 1 ≤ rpc) (hbufs : ∀ buf ∈ bufs, buf ≠ [])
    (hcut : cut ≠ []) : seg.eol = (segment rpc bufs).1.eol := by
  obtain ⟨fed, rfl, hfed⟩ := h
  have hstate : Fed rpc seg cut (Scan.start.run rpc fed.flatten) := by
    have hall : Fed rpc ((Segmentator.new rpc).feedAll [] fed).1 ((Segmentator.new rpc).feedAll [] fed).2
        (Scan.start.run rpc fed.flatten) :=
      @Fed.feedAll rpc (Segmentator.new rpc) [] fed [] hrpc (.inr new_kept)
        (fun b hb => hbufs b (mem_append_left reads hb))
    rw [hfed] at hall
    exact hall
  have hsound := Scan.sound_run hrpc fed.flatten
  obtain ⟨heol, hcuts⟩ : seg.eol = (Scan.start.run rpc fed.flatten).eol ∧
      Cuts cut (Scan.start.run rpc fed.flatten).chunks := by
    rcases hstate with ⟨-, -, heol, -, hcuts⟩ | hkept
    · exact ⟨heol, hcuts⟩
    · exact ⟨hkept.eol, hkept.out⟩
  rw [(segment_eq hrpc hbufs).2.2, heol, flatten_append, run_append]
  generalize Scan.start.run rpc fed.flatten = s at hsound hcuts
  have hknown : s.eol ≠ .unknown := by
    rcases hsound.styled with ⟨-, hlines, hlive, -⟩ | ⟨l, ls, hdec, -⟩
    · -- a chunk has a line, and a line decides
      obtain ⟨-, hfull, -⟩ := hsound.grouped.open hlive
      rcases hchunks : s.chunks with _ | ⟨c, cs⟩
      · rw [hchunks] at hcuts
        exact absurd (map_eq_nil_iff.mp hcuts.1) hcut
      · rw [Scan.lines, hchunks, flatten_cons, append_assoc] at hlines
        have hlen := hfull c (by rw [hchunks]; exact mem_cons_self)
        rw [(append_eq_nil_iff.mp hlines).1, length_nil] at hlen
        omega
    · exact hdec.known
  exact (run_eol hknown reads.flatten).symm

end Producer

/-- Where a worker is in `run_chunk`. -/
inductive Phase
  | idle
  | claimed (g : Nat)
  | holds (g : Nat) (chunk : ChunkDesc)
  | passed (g : Nat) (chunk : ChunkDesc)
  | parses (g : Nat) (chunk : ChunkDesc) (eol : EolType)
  | records (g : Nat)

/-- The chunk a worker is at. -/
def Phase.chunk : Phase → Option Nat
  | idle => none
  | claimed g => some g
  | holds g _ => some g
  | passed g _ => some g
  | parses g _ _ => some g
  | records g => some g

/-- Where the leader is in its loop, and how it ends. -/
inductive Pc (Err : Type)
  | commit
  | check
  | read
  | storeEol
  | insert
  | publish
  | close
  | poll
  | drain
  | raised (e : Err)
  | finished

/-- `parse` is what `parse_encode_chunk` gives for a chunk read in a newline style. -/
structure Config (Enc Err : Type) where
  rowsPerChunk : Nat
  window : Nat
  parse : ChunkDesc → EolType → Except Err (Option Enc)
  rows_pos : 1 ≤ rowsPerChunk
  window_ge : 2 ≤ window

/-- The shared maps and counters, the workers, and the leader's own variables. `errorFloor` is `none`
while it is `u64::MAX`; `claims` is the cursor of the stream source. -/
structure State (ι Enc Err : Type) where
  later : EolType
  chunks : Nat → Option ChunkDesc
  done : Nat → Option (Option Enc)
  errors : Nat → Option Err
  errorFloor : Option Nat
  watermark : Nat
  closed : Bool
  claims : Nat
  failedHard : Bool
  workers : ι → Phase
  pc : Pc Err
  reads : List (List UInt8)
  seg : Segmentator
  ready : List ChunkDesc
  published : Nat
  nextCommit : Nat
  inputDone : Bool
  committed : List Enc

namespace State

variable {ι Enc Err : Type} [DecidableEq ι]

def init (c : Config Enc Err) (bufs : List (List UInt8)) : State ι Enc Err where
  later := .unknown
  chunks _ := none
  done _ := none
  errors _ := none
  errorFloor := none
  watermark := 0
  closed := false
  claims := 0
  failedHard := false
  workers _ := .idle
  pc := .commit
  reads := bufs
  seg := Segmentator.new c.rowsPerChunk
  ready := []
  published := 0
  nextCommit := 0
  inputDone := false
  committed := []

/-- Worker `w` goes on to `phase`. -/
def move (s : State ι Enc Err) (w : ι) (phase : Phase) : State ι Enc Err :=
  { s with workers := update s.workers w phase }

/-- The next result is taken off the map and committed. -/
def commitNext (s : State ι Enc Err) (enc : Option Enc) : State ι Enc Err :=
  { s with
    done := update s.done s.nextCommit none
    nextCommit := s.nextCommit + 1
    committed := s.committed ++ enc.toList }

/-- The end of the input: the rest becomes the last chunk. -/
def endInput (s : State ι Enc Err) : State ι Enc Err :=
  { s with seg := (s.seg.finish s.ready).1, ready := (s.seg.finish s.ready).2, inputDone := true }

/-- A buffer was read. -/
def feed (s : State ι Enc Err) (buf : List UInt8) (reads : List (List UInt8)) : State ι Enc Err :=
  { s with seg := (s.seg.feed buf s.ready).1, ready := (s.seg.feed buf s.ready).2.1, reads := reads }

/-- What follows the read: chunks that are ready are published, then the end of the input closes
the source. -/
def afterRead (s : State ι Enc Err) : State ι Enc Err :=
  { s with
    pc := if s.ready ≠ [] then .storeEol else if s.inputDone ∧ s.closed = false then .close else .poll }

def insertReady (s : State ι Enc Err) : State ι Enc Err :=
  { s with
    chunks := fun g => if s.published ≤ g ∧ g < s.published + s.ready.length then s.ready[g - s.published]?
      else s.chunks g
    published := s.published + s.ready.length
    ready := []
    pc := .publish }

def publish (s : State ι Enc Err) : State ι Enc Err :=
  { s with
    watermark := max s.watermark s.published
    pc := if s.inputDone ∧ s.closed = false then .close else .poll }

end State

section Steps

variable {ι Enc Err : Type} [DecidableEq ι] (c : Config Enc Err)

/-- A step of a worker: claiming from the stream source, and `run_chunk` cut at its accesses to
shared state. -/
inductive WorkerStep : State ι Enc Err → State ι Enc Err → Prop
  | claim {s w} : s.workers w = .idle → s.claims < s.watermark →
      WorkerStep s ({ s with claims := s.claims + 1 }.move w (.claimed s.claims))
  | take {s w g chunk} : s.workers w = .claimed g → s.chunks g = some chunk →
      WorkerStep s ({ s with chunks := update s.chunks g none }.move w (.holds g chunk))
  | missing {s w g} : s.workers w = .claimed g → s.chunks g = none →
      WorkerStep s ({ s with failedHard := true }.move w .idle)
  | skip {s w g chunk f} : s.workers w = .holds g chunk → s.errorFloor = some f → f < g →
      WorkerStep s (s.move w .idle)
  | pass {s w g chunk} : s.workers w = .holds g chunk → (∀ f, s.errorFloor = some f → g ≤ f) →
      WorkerStep s (s.move w (.passed g chunk))
  | readEol {s w g chunk} : s.workers w = .passed g chunk →
      WorkerStep s (s.move w (.parses g chunk (if g = 0 then .unknown else s.later)))
  | parsed {s w g chunk eol enc} : s.workers w = .parses g chunk eol → c.parse chunk eol = .ok enc →
      WorkerStep s ({ s with done := update s.done g (some enc) }.move w .idle)
  | failed {s w g chunk eol e} : s.workers w = .parses g chunk eol → c.parse chunk eol = .error e →
      WorkerStep s ({ s with errors := update s.errors g (some e) }.move w (.records g))
  | lower {s w g} : s.workers w = .records g →
      WorkerStep s ({ s with errorFloor := some (min g (s.errorFloor.getD g)) }.move w .idle)

/-- A step of the leader. The wait for the workers is over once the source is closed, all that was
published is claimed, and no worker is at a chunk; the leader may also find it not over yet. -/
inductive LeaderStep : State ι Enc Err → State ι Enc Err → Prop
  | commit {s enc} : s.pc = .commit → s.done s.nextCommit = some enc → LeaderStep s (s.commitNext enc)
  | commits {s} : s.pc = .commit → s.done s.nextCommit = none → LeaderStep s { s with pc := .check }
  | goRead {s} : s.pc = .check → s.inputDone = false → s.errorFloor = none →
      s.published - s.nextCommit < c.window → LeaderStep s { s with pc := .read }
  | goClose {s} : s.pc = .check → s.errorFloor ≠ none → s.closed = false → LeaderStep s { s with pc := .close }
  | goPoll {s} : s.pc = .check → ¬ (s.inputDone = false ∧ s.errorFloor = none ∧ s.published - s.nextCommit < c.window) →
      ¬ (s.errorFloor ≠ none ∧ s.closed = false) → LeaderStep s { s with pc := .poll }
  | read {s buf reads} : s.pc = .read → s.reads = buf :: reads → (s.seg.feed buf s.ready).1.eoc = false →
      LeaderStep s (s.feed buf reads).afterRead
  | readLast {s buf reads} : s.pc = .read → s.reads = buf :: reads → (s.seg.feed buf s.ready).1.eoc = true →
      LeaderStep s (s.feed buf reads).endInput.afterRead
  | readNone {s} : s.pc = .read → s.reads = [] → LeaderStep s s.endInput.afterRead
  | storeEol {s} : s.pc = .storeEol → LeaderStep s { s with later := s.seg.eol, pc := .insert }
  | insert {s} : s.pc = .insert → LeaderStep s s.insertReady
  | publish {s} : s.pc = .publish → LeaderStep s s.publish
  | close {s} : s.pc = .close → LeaderStep s { s with closed := true, pc := .poll }
  | again {s} : s.pc = .poll → LeaderStep s { s with pc := .commit }
  | waited {s} : s.pc = .poll → s.closed = true → s.claims = s.watermark → (∀ w, s.workers w = .idle) →
      LeaderStep s { s with pc := .drain }
  | drain {s enc} : s.pc = .drain → s.done s.nextCommit = some enc → LeaderStep s (s.commitNext enc)
  | raise {s m e} : s.pc = .drain → s.done s.nextCommit = none → s.errors m = some e →
      (∀ k, k < m → s.errors k = none) → LeaderStep s { s with pc := .raised e }
  | finish {s} : s.pc = .drain → s.done s.nextCommit = none → (∀ k, s.errors k = none) →
      LeaderStep s { s with pc := .finished }

inductive Step : State ι Enc Err → State ι Enc Err → Prop
  | worker {s t} : WorkerStep c s t → Step s t
  | leader {s t} : LeaderStep c s t → Step s t

/-- The states of the runs over a stream that is read in the buffers `bufs`. -/
inductive Reachable (bufs : List (List UInt8)) : State ι Enc Err → Prop
  | init : Reachable bufs (State.init c bufs)
  | step {s t} : Reachable bufs s → Step c s t → Reachable bufs t

end Steps

section Spec

variable {Enc Err : Type} (c : Config Enc Err) (bufs : List (List UInt8))

/-- The chunks of the stream. -/
def chunksOf : List ChunkDesc := (segment c.rowsPerChunk bufs).2

/-- The newline style a chunk is read in: the first one finds it, the others have the segmentator's. -/
def styleOf (g : Nat) : EolType := if g = 0 then .unknown else (segment c.rowsPerChunk bufs).1.eol

/-- What parsing chunk `g` gives. -/
def resultOf (g : Nat) : Option (Except Err (Option Enc)) :=
  (chunksOf c bufs)[g]?.map (fun chunk => c.parse chunk (styleOf c bufs g))

/-- Chunk `g` parses, with the row group `enc`. -/
def Parses (g : Nat) (enc : Option Enc) : Prop := resultOf c bufs g = some (.ok enc)

/-- Chunk `g` fails with `e`. -/
def Fails (g : Nat) (e : Err) : Prop := resultOf c bufs g = some (.error e)

/-- The row groups of the first `n` chunks, as far as they parse. -/
def rowGroups : Nat → List Enc
  | 0 => []
  | n + 1 => rowGroups n ++ match resultOf c bufs n with
    | some (.ok enc) => enc.toList
    | _ => []

end Spec

variable {g : Nat}

section Invariant

variable {ι Enc Err : Type} [DecidableEq ι] (c : Config Enc Err) (bufs : List (List UInt8))

/-- The leader's reading: what it has cut and published are the first chunks of the stream, and the
style is settled before a chunk that needs it is published. -/
structure Feeding (pc : Pc Err) (reads : List (List UInt8)) (seg : Segmentator) (ready : List ChunkDesc)
    (published watermark : Nat) (inputDone : Bool) (later : EolType) : Prop where
  watermark_le : watermark ≤ published
  published_le : published ≤ (chunksOf c bufs).length
  cut : (chunksOf c bufs).take published ++ ready <+: chunksOf c bufs
  live : inputDone = false →
    Cutting c.rowsPerChunk bufs seg ((chunksOf c bufs).take published ++ ready) reads ∧ seg.eoc = false
  ended : inputDone = true → (chunksOf c bufs).take published ++ ready = chunksOf c bufs
  synced : pc ≠ .publish → watermark = published
  waiting : ready ≠ [] → pc = .storeEol ∨ pc = .insert
  reading : pc = .read → inputDone = false
  style : 2 ≤ published + ready.length → seg.eol = (segment c.rowsPerChunk bufs).1.eol
  stored : 2 ≤ published → later = (segment c.rowsPerChunk bufs).1.eol
  storing : pc = .insert → 2 ≤ published + ready.length → later = (segment c.rowsPerChunk bufs).1.eol

/-- The chunk registry: a chunk that can be claimed is there, and each claim has one worker. -/
structure Registry (chunks : Nat → Option ChunkDesc) (published claims : Nat) (workers : ι → Phase) : Prop where
  known : ∀ g chunk, chunks g = some chunk → (chunksOf c bufs)[g]? = some chunk
  present : ∀ g, claims ≤ g → g < published → chunks g ≠ none
  waits : ∀ w g, workers w = .claimed g → chunks g ≠ none
  below : ∀ w g, (workers w).chunk = some g → g < claims
  one : ∀ w w' g, (workers w).chunk = some g → (workers w').chunk = some g → w = w'
  holds : ∀ w g chunk, workers w = .holds g chunk ∨ workers w = .passed g chunk → (chunksOf c bufs)[g]? = some chunk
  parses : ∀ w g chunk eol, workers w = .parses g chunk eol →
    (chunksOf c bufs)[g]? = some chunk ∧ eol = styleOf c bufs g

/-- Chunk `g` is through: it parsed, failed, or was skipped behind an error. -/
def Settled (done : Nat → Option (Option Enc)) (errors : Nat → Option Err) (errorFloor : Option Nat)
    (nextCommit g : Nat) : Prop :=
  (∃ enc, Parses c bufs g enc ∧ (g < nextCommit ∨ done g = some enc)) ∨ errors g ≠ none ∨
    ∃ f, errorFloor = some f ∧ f < g

/-- Results and errors are those of the chunks, and no claimed chunk is lost. -/
structure Results (done : Nat → Option (Option Enc)) (errors : Nat → Option Err) (errorFloor : Option Nat)
    (claims nextCommit : Nat) (committed : List Enc) (workers : ι → Phase) : Prop where
  status : ∀ g, g < claims → (∃ w, (workers w).chunk = some g) ∨ Settled c bufs done errors errorFloor nextCommit g
  records : ∀ w g, workers w = .records g → errors g ≠ none
  done_ok : ∀ g enc, done g = some enc → Parses c bufs g enc ∧ g < claims
  errors_ok : ∀ g e, errors g = some e → Fails c bufs g e ∧ g < claims
  floor : ∀ f, errorFloor = some f → errors f ≠ none
  floored : ∀ g, errors g ≠ none → (∃ f, errorFloor = some f ∧ f ≤ g) ∨ ∃ w, workers w = .records g
  commits : nextCommit ≤ claims ∧ ∀ i, i < nextCommit → ∃ enc, Parses c bufs i enc
  committed : committed = rowGroups c bufs nextCommit

/-- The leader is past the wait for the workers. -/
def Pc.Over : Pc Err → Prop
  | .drain => True
  | .raised _ => True
  | .finished => True
  | _ => False

/-- How the leader ends. -/
def Outcome (nextCommit : Nat) : Pc Err → Prop
  | .raised e => Fails c bufs nextCommit e
  | .finished => nextCommit = (chunksOf c bufs).length
  | _ => True

structure Inv (s : State ι Enc Err) : Prop where
  feeding : Feeding c bufs s.pc s.reads s.seg s.ready s.published s.watermark s.inputDone s.later
  registry : Registry c bufs s.chunks s.published s.claims s.workers
  results : Results c bufs s.done s.errors s.errorFloor s.claims s.nextCommit s.committed s.workers
  claims_le : s.claims ≤ s.watermark
  closing : s.closed = true ∨ s.pc = .close → s.errorFloor ≠ none ∨ s.watermark = (chunksOf c bufs).length
  shut : s.inputDone = true → s.closed = true ∨ s.pc = .storeEol ∨ s.pc = .insert ∨ s.pc = .publish ∨ s.pc = .close
  waited : s.pc.Over → s.closed = true ∧ s.claims = s.watermark ∧ ∀ w, s.workers w = .idle
  hard : s.failedHard = false
  outcome : Outcome c bufs s.nextCommit s.pc

variable {c bufs} {chunks : Nat → Option ChunkDesc} {done : Nat → Option (Option Enc)} {errors : Nat → Option Err}
  {errorFloor : Option Nat} {published claims nextCommit : Nat} {committed : List Enc} {workers : ι → Phase} {w : ι}
  {phase : Phase}

attribute [grind cases] Registry Results

theorem exists_chunk_update : (∃ w', (update workers w phase w').chunk = some g) ↔
    phase.chunk = some g ∨ ∃ w', w' ≠ w ∧ (workers w').chunk = some g :=
  exists_update_iff workers fun _ p => p.chunk = some g

theorem exists_records_update : (∃ w', update workers w phase w' = .records g) ↔
    phase = .records g ∨ ∃ w', w' ≠ w ∧ workers w' = .records g :=
  exists_update_iff workers fun _ p => p = .records g

section

variable (h : Registry c bufs chunks published claims workers)
include h

/-- A worker goes on with its chunk, or leaves it. -/
theorem Registry.move
    (hchunk : ∀ g, phase.chunk = some g → (workers w).chunk = some g) (hclaimed : ∀ g, phase ≠ .claimed g)
    (hholds : ∀ g chunk, phase = .holds g chunk ∨ phase = .passed g chunk → (chunksOf c bufs)[g]? = some chunk)
    (hparses : ∀ g chunk eol, phase = .parses g chunk eol →
      (chunksOf c bufs)[g]? = some chunk ∧ eol = styleOf c bufs g) :
    Registry c bufs chunks published claims (update workers w phase) := by
  constructor
  case one =>
    -- who has a chunk now had it before
    have hkeep : ∀ w' g, (update workers w phase w').chunk = some g → (workers w').chunk = some g := by
      grind [update_apply]
    exact fun w' w'' g hg hg' => h.one w' w'' g (hkeep w' g hg) (hkeep w'' g hg')
  all_goals grind [update_apply]

theorem Registry.claim (hlt : claims < published) :
    Registry c bufs chunks published (claims + 1) (update workers w (.claimed claims)) := by
  constructor
  all_goals grind [update_apply, Phase.chunk]

theorem Registry.take {g : Nat} {chunk : ChunkDesc} (hw : workers w = .claimed g) (hchunk : chunks g = some chunk) :
    Registry c bufs (update chunks g none) published claims (update workers w (.holds g chunk)) := by
  have hg : (workers w).chunk = some g := by rw [hw]; rfl
  -- another worker with this chunk would have its claim
  have hone := fun w' => h.one w' w g
  constructor
  all_goals grind [update_apply, Phase.chunk]

theorem Registry.idle (w : ι) : Registry c bufs chunks published claims (update workers w .idle) := by
  apply h.move
  · exact nofun
  · exact nofun
  · exact fun g chunk hg => by rcases hg with hg | hg <;> cases hg
  · exact nofun

end

theorem Parses.inj {g : Nat} {enc enc' : Option Enc} (h : Parses c bufs g enc) (h' : Parses c bufs g enc') :
    enc = enc' := by
  rw [Parses, h] at h'
  cases h'
  rfl

variable {enc : Option Enc} {e : Err}

theorem Parses.not_fails (h : Parses c bufs g enc) : ¬ Fails c bufs g e := by
  intro hf
  rw [Fails, h] at hf
  cases hf

section

variable (h : Results c bufs done errors errorFloor claims nextCommit committed workers)
include h

/-- A worker goes on with its chunk, or leaves it when it is through. -/
theorem Results.move (hleave : ∀ g, (workers w).chunk = some g →
      phase.chunk = some g ∨ Settled c bufs done errors errorFloor nextCommit g)
    (hrecords : ∀ g, phase = .records g → errors g ≠ none)
    (hleft : ∀ g, workers w = .records g → phase = .records g ∨ ∃ f, errorFloor = some f ∧ f ≤ g) :
    Results c bufs done errors errorFloor claims nextCommit committed (update workers w phase) := by
  constructor
  all_goals simp -failIfUnchanged only [exists_chunk_update, exists_records_update]
  all_goals grind [update_apply]

/-- A worker goes on with its chunk, before it parses or records. -/
theorem Results.goOn (hchunk : phase.chunk = (workers w).chunk) (hw : ∀ g, workers w ≠ .records g) (hphase : ∀ g, phase ≠ .records g) :
    Results c bufs done errors errorFloor claims nextCommit committed (update workers w phase) := by
  apply h.move
  · exact fun g hg => .inl (hchunk.trans hg)
  · exact fun g hg => absurd hg (hphase g)
  · exact fun g hg => absurd hg (hw g)

/-- A worker that is through with its chunk takes no error with it. -/
theorem Results.idle (hleave : ∀ g, (workers w).chunk = some g → Settled c bufs done errors errorFloor nextCommit g)
    (hw : ∀ g, workers w ≠ .records g) :
    Results c bufs done errors errorFloor claims nextCommit committed (update workers w .idle) := by
  apply h.move
  · exact fun g hg => .inr (hleave g hg)
  · exact nofun
  · exact fun g hg => absurd hg (hw g)

theorem Results.claim (hw : workers w = .idle) :
    Results c bufs done errors errorFloor (claims + 1) nextCommit committed
      (update workers w (.claimed claims)) := by
  constructor
  all_goals simp -failIfUnchanged only [exists_chunk_update, exists_records_update]
  all_goals grind [update_apply, Phase.chunk]

omit [DecidableEq ι] in
/-- A result is left on the map. -/
theorem Results.insertDone (hg : Parses c bufs g enc) (hlt : g < claims) :
    Results c bufs (update done g (some enc)) errors errorFloor claims nextCommit committed workers := by
  have hinj := @Parses.inj _ _ c bufs g enc
  constructor
  all_goals grind [update_apply, Settled]

/-- An error is recorded, by a worker that goes on to lower the floor. -/
theorem Results.insertError (hg : Fails c bufs g e) (hw : (workers w).chunk = some g) (hlt : g < claims)
    (hrecords : ∀ g', workers w ≠ .records g') :
    Results c bufs done (update errors g (some e)) errorFloor claims nextCommit committed
      (update workers w (.records g)) := by
  constructor
  all_goals simp -failIfUnchanged only [exists_chunk_update, exists_records_update]
  all_goals grind [update_apply, Settled, Phase.chunk]

/-- The floor comes down to a chunk that has an error. -/
theorem Results.lower {g : Nat} (hw : workers w = .records g) :
    Results c bufs done errors (some (min g (errorFloor.getD g))) claims nextCommit committed
      (update workers w .idle) := by
  constructor
  all_goals simp -failIfUnchanged only [exists_chunk_update, exists_records_update]
  case floor => cases errorFloor <;> grind
  all_goals grind [update_apply, Settled, Phase.chunk]

omit [DecidableEq ι] in
theorem Results.commitNext (hdone : done nextCommit = some enc) :
    Results c bufs (update done nextCommit none) errors errorFloor claims (nextCommit + 1)
      (committed ++ enc.toList) workers := by
  obtain ⟨hparses, hlt⟩ := h.done_ok nextCommit enc hdone
  constructor
  case committed =>
    have hresult : resultOf c bufs nextCommit = some (.ok enc) := hparses
    rw [rowGroups, hresult, h.committed]
  all_goals grind [update_apply, Settled]

end

variable {s t : State ι Enc Err}

section

omit [DecidableEq ι]

/-- A step of a worker while the leader still waits: what the leader alone writes stays. -/
theorem Inv.ofWorker (h : Inv c bufs s) (w : ι) (hw : s.workers w ≠ .idle ∨ s.claims < s.watermark)
    (workers : ι → Phase) (hclaims : claims ≤ s.watermark) (hregistry : Registry c bufs chunks s.published claims workers)
    (hresults : Results c bufs done errors errorFloor claims s.nextCommit s.committed workers)
    (hfloor : s.errorFloor ≠ none → errorFloor ≠ none) :
    Inv c bufs { s with
      chunks := chunks, done := done, errors := errors, errorFloor := errorFloor, claims := claims,
      workers := workers } :=
  { h with
    registry := hregistry
    results := hresults
    claims_le := hclaims
    closing := fun hclosing => (h.closing hclosing).imp_left hfloor
    waited := fun hover => absurd ((h.waited hover).2.2 w) (hw.resolve_right (h.waited hover).2.1.not_lt) }

/-- The style that a worker reads is the one the chunk is to be read in. -/
theorem Inv.style (h : Inv c bufs s) (hg : (s.workers w).chunk = some g) :
    (if g = 0 then EolType.unknown else s.later) = styleOf c bufs g := by
  have hlt := h.registry.below w g hg
  have hle := h.claims_le
  have hwater := h.feeding.watermark_le
  rw [styleOf]
  by_cases hzero : g = 0
  · rw [if_pos hzero, if_pos hzero]
  · rw [if_neg hzero, if_neg hzero]
    exact h.feeding.stored (by omega)

theorem resultOf_of_parses (h : Inv c bufs s) (hw : s.workers w = .parses g chunk eol) :
    resultOf c bufs g = some (c.parse chunk eol) := by
  obtain ⟨hchunk, rfl⟩ := h.registry.parses w g chunk eol hw
  rw [resultOf, hchunk]
  rfl

end

theorem Inv.worker (h : Inv c bufs s) (hstep : WorkerStep c s t) : Inv c bufs t := by
  cases hstep with
  | @claim w hw hlt =>
    have hle : s.claims + 1 ≤ s.watermark := hlt
    exact h.ofWorker w (.inr hlt) _ hle (h.registry.claim (hlt.trans_le h.feeding.watermark_le)) (h.results.claim hw) id
  | @take w g chunk hw hchunk =>
    exact h.ofWorker w (.inl (by simp [hw])) _ h.claims_le (h.registry.take hw hchunk)
      (h.results.goOn (by rw [hw]; rfl) (by simp [hw]) (by simp)) id
  | @missing w g hw hnone => exact absurd hnone (h.registry.waits w g hw)
  | @skip w g chunk f hw hf hlt =>
    refine h.ofWorker w (.inl (by simp [hw])) _ h.claims_le (h.registry.idle w) (h.results.idle ?_ (by simp [hw])) id
    intro g' hg'
    rw [hw] at hg'
    cases hg'
    exact .inr (.inr ⟨f, hf, hlt⟩)
  | @pass w g chunk hw hfloor =>
    refine h.ofWorker w (.inl (by simp [hw])) _ h.claims_le (h.registry.move ?_ (by simp) ?_ (by simp))
      (h.results.goOn (by rw [hw]; rfl) (by simp [hw]) (by simp)) id
    · intro g' hg'
      rw [hw]
      exact hg'
    · rintro g' chunk' (hg' | hg')
      · cases hg'
      · cases hg'
        exact h.registry.holds w g chunk (.inl hw)
  | @readEol w g chunk hw =>
    refine h.ofWorker w (.inl (by simp [hw])) _ h.claims_le (h.registry.move ?_ (by simp) (by simp) ?_)
      (h.results.goOn (by rw [hw]; rfl) (by simp [hw]) (by simp)) id
    · intro g' hg'
      rw [hw]
      exact hg'
    · intro g' chunk' eol hg'
      cases hg'
      exact ⟨h.registry.holds w g chunk (.inr hw), h.style (w := w) (by rw [hw]; rfl)⟩
  | @parsed w g chunk eol enc hw hparse =>
    have hg : Parses c bufs g enc := by rw [Parses, resultOf_of_parses h hw, hparse]
    have hlt := h.registry.below w g (by rw [hw]; rfl)
    refine h.ofWorker w (.inl (by simp [hw])) _ h.claims_le (h.registry.idle w)
      ((h.results.insertDone hg hlt).idle ?_ (by simp [hw])) id
    intro g' hg'
    rw [hw] at hg'
    cases hg'
    exact .inl ⟨enc, hg, .inr (update_self _ _ _)⟩
  | @failed w g chunk eol e hw hparse =>
    have hg : Fails c bufs g e := by rw [Fails, resultOf_of_parses h hw, hparse]
    have hchunk : (s.workers w).chunk = some g := by rw [hw]; rfl
    refine h.ofWorker w (.inl (by simp [hw])) _ h.claims_le (h.registry.move ?_ (by simp) (by simp) (by simp))
      (h.results.insertError hg hchunk (h.registry.below w g hchunk) (by simp [hw])) id
    intro g' hg'
    cases hg'
    exact hchunk
  | @lower w g hw =>
    exact h.ofWorker w (.inl (by simp [hw])) _ h.claims_le (h.registry.idle w) (h.results.lower hw) (by simp)

variable {pc pc' : Pc Err} {reads : List (List UInt8)} {seg : Segmentator} {ready : List ChunkDesc} {watermark : Nat}
  {inputDone : Bool} {later : EolType} {buf : List UInt8}

section

variable (h : Feeding c bufs pc reads seg ready published watermark inputDone later)
include h

/-- Between two reads nothing waits to be published. -/
theorem Feeding.ready_nil (hstore : pc ≠ .storeEol) (hinsert : pc ≠ .insert) : ready = [] := by
  by_contra hne
  rcases h.waiting hne with hpc | hpc
  · exact hstore hpc
  · exact hinsert hpc

/-- The leader goes on where nothing waits to be published. -/
theorem Feeding.goOn (hpc : pc ≠ .storeEol ∧ pc ≠ .insert ∧ pc ≠ .publish) (hnext : pc' ≠ .insert)
    (hreading : pc' = .read → inputDone = false) :
    Feeding c bufs pc' reads seg ready published watermark inputDone later :=
  { h with
    synced := fun _ => h.synced hpc.2.2
    waiting := fun hne => absurd (h.ready_nil hpc.1 hpc.2.1) hne
    reading := hreading
    storing := fun hinsert => absurd hinsert hnext }

/-- The chunks that a read leaves. -/
theorem Feeding.afterRead (hpc : pc = .read) (hpc' : pc' ≠ .insert ∧ pc' ≠ .read)
    (hwait : ready' ≠ [] → pc' = .storeEol)
    (hcut : (chunksOf c bufs).take published ++ ready' <+: chunksOf c bufs) (hlive : inputDone' = false →
      Cutting c.rowsPerChunk bufs seg' ((chunksOf c bufs).take published ++ ready') reads' ∧ seg'.eoc = false)
    (hended : inputDone' = true → (chunksOf c bufs).take published ++ ready' = chunksOf c bufs)
    (hstyle : 2 ≤ published + ready'.length → seg'.eol = (segment c.rowsPerChunk bufs).1.eol) :
    Feeding c bufs pc' reads' seg' ready' published watermark inputDone' later :=
  { h with
    cut := hcut
    live := hlive
    ended := hended
    synced := fun _ => h.synced (by rw [hpc]; simp)
    waiting := fun hne => .inl (hwait hne)
    reading := fun hread => absurd hread hpc'.2
    style := hstyle
    storing := fun hinsert => absurd hinsert hpc'.1 }

/-- When the input has ended and nothing waits, all chunks are published. -/
theorem Feeding.all_published (hdone : inputDone = true) (hready : ready = []) :
    published = (chunksOf c bufs).length := by
  have hall := h.ended hdone
  rw [hready, append_nil] at hall
  have hlen := congrArg List.length hall
  rw [length_take] at hlen
  have := h.published_le
  omega

end

theorem take_length_append (h : published ≤ (chunksOf c bufs).length) :
    ((chunksOf c bufs).take published ++ ready).length = published + ready.length := by
  rw [length_append, length_take]
  omega

theorem finish_out (seg : Segmentator) (out : List ChunkDesc) :
    seg.finish out = ((seg.finish []).1, out ++ (seg.finish []).2) := by
  have hfin := @finish_append out [] seg
  rw [append_nil] at hfin
  exact hfin

section Reading

variable (hbufs : ∀ buf ∈ bufs, buf ≠ [])

include hbufs in
theorem Cutting.settled (hn : n ≤ (chunksOf c bufs).length)
    (h : Cutting c.rowsPerChunk bufs seg ((chunksOf c bufs).take n ++ out) reads) (hlen : 1 ≤ n + out.length) :
    seg.eol = (segment c.rowsPerChunk bufs).1.eol := by
  apply h.style c.rows_pos hbufs
  intro hnil
  have hlength := congrArg List.length hnil
  rw [take_length_append hn, length_nil] at hlength
  omega

include hbufs in
theorem Feeding.read (h : Feeding c bufs pc (buf :: reads) seg ready published watermark inputDone later)
    (hpc : pc = .read) (hpc' : pc' ≠ .insert ∧ pc' ≠ .read)
    (hwait : (seg.feed buf ready).2.1 ≠ [] → pc' = .storeEol) (heoc : (seg.feed buf ready).1.eoc = false) :
    Feeding c bufs pc' reads (seg.feed buf ready).1 (seg.feed buf ready).2.1 published watermark inputDone later := by
  have hlive := h.reading hpc
  obtain ⟨hcutting, hseg⟩ := h.live hlive
  have hnil : ready = [] := h.ready_nil (by rw [hpc]; simp) (by rw [hpc]; simp)
  subst hnil
  rw [append_nil] at hcutting
  have hfed := hcutting.feed hseg
  exact h.afterRead hpc hpc' hwait hfed.isPrefix (fun _ => ⟨hfed, heoc⟩)
    (fun hdone => by rw [hlive] at hdone; cases hdone)
    (fun hlen => Cutting.settled hbufs h.published_le hfed (by omega))

include hbufs in
/-- The end of the input: the rest is the last chunk, and all chunks are there. -/
theorem Feeding.endInput (h : Feeding c bufs pc reads seg ready published watermark inputDone later)
    (hpc : pc = .read) (hpc' : pc' ≠ .insert ∧ pc' ≠ .read)
    (hcutting : Cutting c.rowsPerChunk bufs seg' ((chunksOf c bufs).take published ++ ready') reads')
    (hend : reads' = [] ∨ seg'.eoc = true) (hwait : (seg'.finish ready').2 ≠ [] → pc' = .storeEol) :
    Feeding c bufs pc' reads' (seg'.finish ready').1 (seg'.finish ready').2 published watermark true later := by
  rw [finish_out] at hwait ⊢
  have hall := hcutting.finish hend
  rw [append_assoc] at hall
  refine h.afterRead hpc hpc' hwait ?_ nofun (fun _ => hall) ?_
  · simp only
    rw [hall]
    exact prefix_refl _
  · intro hlen
    have hone := @finish_length seg'
    rw [length_append] at hlen
    rw [finish_eol]
    exact Cutting.settled hbufs h.published_le hcutting (by omega)

theorem Feeding.insertReady (h : Feeding c bufs pc reads seg ready published watermark inputDone later)
    (hpc : pc = .insert) :
    Feeding c bufs .publish reads seg [] (published + ready.length) watermark inputDone later := by
  have htake : (chunksOf c bufs).take (published + ready.length) = (chunksOf c bufs).take published ++ ready := by
    rw [← take_length_append h.published_le]
    exact (prefix_iff_eq_take.mp h.cut).symm
  have hle : published + ready.length ≤ (chunksOf c bufs).length := by
    have hlen := h.cut.length_le
    rw [take_length_append h.published_le] at hlen
    exact hlen
  refine ⟨h.watermark_le.trans (Nat.le_add_right _ _), hle, ?_, ?_, ?_, ?_, ?_, ?_, ?_, ?_, ?_⟩
  · rw [htake, append_nil]
    exact h.cut
  · rw [htake, append_nil]
    exact h.live
  · rw [htake, append_nil]
    exact h.ended
  · exact fun hne => absurd rfl hne
  · exact fun hne => absurd rfl hne
  · exact nofun
  · exact h.style
  · exact h.storing hpc
  · exact nofun

section

omit [DecidableEq ι]

theorem Registry.insertReady (h : Registry c bufs chunks published claims workers) (hclaims : claims ≤ published)
    (hn : published ≤ (chunksOf c bufs).length) (hcut : (chunksOf c bufs).take published ++ ready <+: chunksOf c bufs) :
    Registry c bufs
      (fun g => if published ≤ g ∧ g < published + ready.length then ready[g - published]? else chunks g)
      (published + ready.length) claims workers := by
  have hget : ∀ k, k < ready.length → ready[k]? = (chunksOf c bufs)[published + k]? := by
    intro k hk
    obtain ⟨rest, hrest⟩ := hcut
    have hlen : ((chunksOf c bufs).take published).length = published := by
      rw [length_take]
      omega
    rw [← hrest, append_assoc, getElem?_append_right (by omega), hlen, Nat.add_sub_cancel_left,
      getElem?_append_left hk]
  refine ⟨?_, ?_, ?_, h.below, h.one, h.holds, h.parses⟩
  · intro g chunk hg
    split_ifs at hg with hrange
    · rw [hget _ (by omega)] at hg
      rw [show published + (g - published) = g by omega] at hg
      exact hg
    · exact h.known g chunk hg
  · intro g hle hlt
    split_ifs with hrange
    · rw [getElem?_eq_getElem (by omega)]
      simp
    · exact h.present g hle (by omega)
  · intro w g hw
    have hlt := h.below w g (by rw [hw]; rfl)
    rw [if_neg (by omega)]
    exact h.waits w g hw

/-- With no worker at a chunk, every claimed chunk is through. -/
theorem Inv.settled (h : Inv c bufs s) (hidle : ∀ w, s.workers w = .idle) (hg : g < s.claims) :
    Settled c bufs s.done s.errors s.errorFloor s.nextCommit g := by
  rcases h.results.status g hg with ⟨w, hw⟩ | hsettled
  · rw [hidle w] at hw
    cases hw
  · exact hsettled

/-- The first chunk that is not committed has the lowest error. -/
theorem Inv.raised (h : Inv c bufs s) (hpc : s.pc = .drain) (hdone : s.done s.nextCommit = none)
    (hm : s.errors m = some e) (hlow : ∀ k, k < m → s.errors k = none) : Fails c bufs s.nextCommit e := by
  obtain ⟨hfails, hclaimed⟩ := h.results.errors_ok m e hm
  obtain ⟨-, -, hidle⟩ := h.waited (by rw [hpc]; trivial)
  rcases Nat.lt_trichotomy s.nextCommit m with hlt | heq | hlt
  · rcases h.settled hidle (hlt.trans hclaimed) with ⟨enc, -, hcommitted⟩ | herror | ⟨f, hf, hfm⟩
    · rcases hcommitted with hself | hsome
      · exact absurd hself (Nat.lt_irrefl _)
      · rw [hdone] at hsome
        cases hsome
    · exact absurd (hlow _ hlt) herror
    · exact absurd (hlow f (hfm.trans hlt)) (h.results.floor f hf)
  · rw [heq]
    exact hfails
  · obtain ⟨enc, hparses⟩ := h.results.commits.2 m hlt
    exact absurd hfails hparses.not_fails

/-- Without an error all chunks are committed. -/
theorem Inv.finished (h : Inv c bufs s) (hpc : s.pc = .drain) (hdone : s.done s.nextCommit = none)
    (hnone : ∀ k, s.errors k = none) : s.nextCommit = (chunksOf c bufs).length := by
  obtain ⟨hclosed, hall, hidle⟩ := h.waited (by rw [hpc]; trivial)
  have hfloor : s.errorFloor = none := by
    cases hf : s.errorFloor with
    | none => rfl
    | some f => exact absurd (hnone f) (h.results.floor f hf)
  have hlength : s.watermark = (chunksOf c bufs).length := by
    exact (h.closing (.inl hclosed)).resolve_left fun herror => herror hfloor
  rw [← hlength, ← hall]
  apply Nat.le_antisymm h.results.commits.1
  by_contra hlt
  have hsettled := h.settled hidle (Nat.lt_of_not_le hlt)
  grind [Settled]

/-- A step of the leader before its end: what the workers write stays. -/
theorem Inv.ofLeader (h : Inv c bufs s) (hover : ¬ pc.Over)
    (hfeeding : Feeding c bufs pc reads seg ready published watermark inputDone later)
    (hregistry : Registry c bufs chunks published s.claims s.workers) (hwater : s.watermark ≤ watermark)
    (hclosing : closed = true ∨ pc = .close → s.errorFloor ≠ none ∨ watermark = (chunksOf c bufs).length)
    (hshut : inputDone = true → closed = true ∨ pc = .storeEol ∨ pc = .insert ∨ pc = .publish ∨ pc = .close) :
    Inv c bufs { s with
      later := later, chunks := chunks, watermark := watermark, closed := closed, pc := pc, reads := reads,
      seg := seg, ready := ready, published := published, inputDone := inputDone } :=
  { h with
    feeding := hfeeding
    registry := hregistry
    claims_le := h.claims_le.trans hwater
    closing := hclosing
    shut := hshut
    waited := fun hpc => absurd hpc hover
    outcome := by cases pc <;> first | trivial | exact absurd trivial hover }

/-- The source is closed, or still open at the place that closes it. -/
theorem Inv.closing_of (h : Inv c bufs s)
    (hclose : pc = .close → s.errorFloor ≠ none ∨ s.watermark = (chunksOf c bufs).length) :
    s.closed = true ∨ pc = .close → s.errorFloor ≠ none ∨ s.watermark = (chunksOf c bufs).length := by
  rintro (hclosed | hpc)
  · exact h.closing (.inl hclosed)
  · exact hclose hpc

theorem Inv.afterRead (h : Inv c bufs s)
    (hfeeding : ∀ pc' : Pc Err, pc' ≠ .insert ∧ pc' ≠ .read → (ready' ≠ [] → pc' = .storeEol) →
      Feeding c bufs pc' reads' seg' ready' s.published s.watermark inputDone' s.later) :
    Inv c bufs { s with reads := reads', seg := seg', ready := ready', inputDone := inputDone' }.afterRead := by
  rw [State.afterRead]
  by_cases hready : ready' = []
  · simp only [hready, ne_eq, not_true_eq_false, if_false]
    subst hready
    split_ifs with hend
    · have hfeed := hfeeding .close ⟨by simp, by simp⟩ (by simp)
      refine h.ofLeader id hfeed h.registry (le_rfl) (h.closing_of fun _ => .inr ?_) (by simp)
      exact (hfeed.synced (by simp)).trans (hfeed.all_published hend.1 rfl)
    · have hfeed := hfeeding .poll ⟨by simp, by simp⟩ (by simp)
      refine h.ofLeader id hfeed h.registry (le_rfl) (h.closing_of (by simp)) (fun hdone => .inl ?_)
      simpa [hdone] using hend
  · simp only [ne_eq, hready, not_false_eq_true, if_true]
    have hfeed := hfeeding .storeEol ⟨by simp, by simp⟩ (fun _ => rfl)
    exact h.ofLeader id hfeed h.registry (le_rfl) (h.closing_of (by simp)) (by simp)

theorem Inv.closed_of_done (h : Inv c bufs s)
    (hpc : s.pc ≠ .storeEol ∧ s.pc ≠ .insert ∧ s.pc ≠ .publish ∧ s.pc ≠ .close) (hdone : s.inputDone = true) :
    s.closed = true := by
  have hshut := h.shut hdone
  grind

/-- A step that only moves the leader, while it is not past the wait and nothing waits to be published. -/
theorem Inv.goOn (h : Inv c bufs s)
    (hpc : s.pc ≠ .storeEol ∧ s.pc ≠ .insert ∧ s.pc ≠ .publish ∧ s.pc ≠ .close) (hnext : pc ≠ .insert)
    (hreading : pc = .read → s.inputDone = false) (hclosing : pc = .close → s.errorFloor ≠ none)
    (hover : ¬ pc.Over) : Inv c bufs { s with pc := pc } :=
  h.ofLeader hover (h.feeding.goOn ⟨hpc.1, hpc.2.1, hpc.2.2.1⟩ hnext hreading) h.registry (le_rfl)
    (h.closing_of fun hclose => .inl (hclosing hclose)) (fun hdone => .inl (h.closed_of_done hpc hdone))

/-- A step that only moves the leader, once it has waited for the workers. -/
theorem Inv.over (h : Inv c bufs s) (hpc : s.pc ≠ .storeEol ∧ s.pc ≠ .insert ∧ s.pc ≠ .publish)
    (hnext : pc ≠ .insert ∧ pc ≠ .read)
    (hwaited : s.closed = true ∧ s.claims = s.watermark ∧ ∀ w, s.workers w = .idle)
    (hout : Outcome c bufs s.nextCommit pc) : Inv c bufs { s with pc := pc } :=
  { h with
    feeding := h.feeding.goOn hpc hnext.1 (fun hread => absurd hread hnext.2)
    closing := fun _ => h.closing (.inl hwaited.1)
    shut := fun _ => .inl hwaited.1
    waited := fun _ => hwaited
    outcome := hout }

theorem Inv.commitNext (h : Inv c bufs s) (hpc : s.pc = .commit ∨ s.pc = .drain)
    (hdone : s.done s.nextCommit = some enc) : Inv c bufs (s.commitNext enc) :=
  { h with
    results := h.results.commitNext hdone
    outcome := by
      rw [State.commitNext]
      rcases hpc with hpc | hpc
      · simp only [hpc]
        trivial
      · simp only [hpc]
        trivial }

theorem Inv.publish (h : Inv c bufs s) (hpc : s.pc = .publish) : Inv c bufs s.publish := by
  have hfeed := h.feeding
  have hmax : max s.watermark s.published = s.published := Nat.max_eq_right hfeed.watermark_le
  have hready : s.ready = [] := hfeed.ready_nil (by simp [hpc]) (by simp [hpc])
  have hfeeding : ∀ pc' : Pc Err, pc' ≠ .insert → pc' ≠ .read →
      Feeding c bufs pc' s.reads s.seg s.ready s.published s.published s.inputDone s.later := by
    intro pc' hinsert hread
    exact
      { hfeed with
        watermark_le := le_rfl
        synced := fun _ => rfl
        waiting := fun hne => absurd hready hne
        reading := fun hpc => absurd hpc hread
        storing := fun hpc => absurd hpc hinsert }
  have hclosed : s.closed = true → s.errorFloor ≠ none ∨ s.published = (chunksOf c bufs).length := by
    intro hclosed
    refine (h.closing (.inl hclosed)).imp_right (fun hlen => ?_)
    exact Nat.le_antisymm hfeed.published_le (by rw [← hlen]; exact hfeed.watermark_le)
  rw [State.publish, hmax]
  split_ifs with hend
  · exact h.ofLeader id (hfeeding .close (by simp) (by simp)) h.registry hfeed.watermark_le
      (fun _ => .inr (hfeed.all_published hend.1 hready)) (by simp)
  · refine h.ofLeader id (hfeeding .poll (by simp) (by simp)) h.registry hfeed.watermark_le
      (fun hclosing => hclosing.elim hclosed (by simp)) (fun hdone => .inl ?_)
    simpa [hdone] using hend

include hbufs in
theorem Inv.leader (h : Inv c bufs s) (hstep : LeaderStep c s t) : Inv c bufs t := by
  cases hstep with
  | commit hpc hdone => exact h.commitNext (.inl hpc) hdone
  | commits hpc | goPoll hpc | again hpc => exact h.goOn (by simp [hpc]) (by simp) (by simp) (by simp) id
  | goRead hpc hlive => exact h.goOn (by simp [hpc]) (by simp) (fun _ => hlive) (by simp) id
  | goClose hpc hfloor => exact h.goOn (by simp [hpc]) (by simp) (by simp) (fun _ => hfloor) id
  | @read buf reads hpc hreads heoc =>
    have hfeeding := h.feeding
    rw [hreads] at hfeeding
    exact h.afterRead (fun pc' hpc' hwait => hfeeding.read hbufs hpc hpc' hwait heoc)
  | @readLast buf reads hpc hreads heoc =>
    have hfeeding := h.feeding
    rw [hreads] at hfeeding
    obtain ⟨hcutting, hseg⟩ := hfeeding.live (hfeeding.reading hpc)
    have hnil : s.ready = [] := hfeeding.ready_nil (by rw [hpc]; simp) (by rw [hpc]; simp)
    rw [hnil, append_nil] at hcutting
    have hfed := hcutting.feed hseg
    rw [← hnil] at hfed
    exact h.afterRead (fun pc' hpc' hwait => h.feeding.endInput hbufs hpc hpc' hfed (.inr heoc) hwait)
  | readNone hpc hreads =>
    obtain ⟨hcutting, hseg⟩ := h.feeding.live (h.feeding.reading hpc)
    exact h.afterRead (fun pc' hpc' hwait => h.feeding.endInput hbufs hpc hpc' hcutting (.inl hreads) hwait)
  | storeEol hpc =>
    have hfeed := h.feeding
    have hfeeding : Feeding c bufs .insert s.reads s.seg s.ready s.published s.watermark s.inputDone s.seg.eol :=
      { hfeed with
        synced := fun _ => hfeed.synced (by simp [hpc])
        waiting := fun _ => .inr rfl
        reading := by simp
        stored := fun hlen => hfeed.style (by omega)
        storing := fun _ => hfeed.style }
    exact h.ofLeader id hfeeding h.registry (le_rfl) (h.closing_of (by simp)) (by simp)
  | insert hpc =>
    have hclaims := h.claims_le.trans h.feeding.watermark_le
    have hregistry := h.registry.insertReady hclaims h.feeding.published_le h.feeding.cut
    exact h.ofLeader id (h.feeding.insertReady hpc) hregistry (le_rfl) (h.closing_of (by simp)) (by simp)
  | publish hpc => exact h.publish hpc
  | close hpc =>
    have hfeeding : Feeding c bufs .poll s.reads s.seg s.ready s.published s.watermark s.inputDone s.later :=
      h.feeding.goOn (by simp [hpc]) (by simp) (by simp)
    exact h.ofLeader id hfeeding h.registry (le_rfl) (fun _ => h.closing (.inr hpc)) (by simp)
  | waited hpc hclosed hclaims hidle => exact h.over (by simp [hpc]) (by simp) ⟨hclosed, hclaims, hidle⟩ trivial
  | drain hpc hdone => exact h.commitNext (.inr hpc) hdone
  | raise hpc hdone hm hlow =>
    exact h.over (by simp [hpc]) (by simp) (h.waited (by rw [hpc]; trivial)) (h.raised hpc hdone hm hlow)
  | finish hpc hdone hnone =>
    exact h.over (by simp [hpc]) (by simp) (h.waited (by rw [hpc]; trivial)) (h.finished hpc hdone hnone)

theorem inv_init : Inv c bufs (State.init c bufs : State ι Enc Err) where
  feeding :=
    { watermark_le := Nat.le_refl 0, published_le := Nat.zero_le _, cut := nil_prefix
      live := fun _ => ⟨cutting_new, rfl⟩, ended := nofun
      synced := fun _ => rfl
      waiting := fun hne => absurd rfl hne, reading := fun _ => rfl
      style := fun hlen => absurd hlen (by simp [State.init]), stored := fun hlen => absurd hlen (by simp [State.init])
      storing := fun hpc => by cases hpc }
  registry :=
    { known := nofun
      present := fun g _ hlt => absurd hlt (Nat.not_lt_zero g)
      waits := nofun
      below := nofun
      one := fun w w' g hw => by cases hw
      holds := fun w g chunk hw => by rcases hw with hw | hw <;> cases hw
      parses := fun w g chunk eol hw => by cases hw }
  results :=
    { status := fun g hlt => absurd hlt (Nat.not_lt_zero g), records := nofun
      done_ok := nofun
      errors_ok := nofun
      floor := nofun
      floored := fun g hg => absurd rfl hg, commits := ⟨Nat.le_refl 0, fun i hi => absurd hi (Nat.not_lt_zero i)⟩
      committed := rfl }
  claims_le := Nat.le_refl 0
  closing := by simp [State.init]
  shut hdone := by cases hdone
  waited hover := absurd hover id
  hard := rfl
  outcome := trivial

end

include hbufs in
theorem Reachable.inv (h : Reachable c bufs s) : Inv c bufs s := by
  induction h with
  | init => exact inv_init
  | step _ hstep ih =>
    cases hstep with
    | worker hworker => exact ih.worker hworker
    | leader hleader => exact ih.leader hbufs hleader

end Reading

end Invariant

section Progress

variable {ι Enc Err : Type} [DecidableEq ι] {c : Config Enc Err} {bufs : List (List UInt8)}
  {s t : State ι Enc Err}

def Steps (c : Config Enc Err) : State ι Enc Err → State ι Enc Err → Prop := Relation.ReflTransGen (Step c)

/-- The leader has ended. -/
def Pc.Ended : Pc Err → Prop
  | .raised _ => True
  | .finished => True
  | _ => False

/-- The steps a worker still has with its chunk. -/
def Phase.weight : Phase → Nat
  | idle => 0
  | records _ => 1
  | parses .. => 2
  | passed .. => 3
  | holds .. => 4
  | claimed _ => 5

/-- What the leader still has to read. -/
def State.unread (s : State ι Enc Err) : Nat :=
  2 * (s.reads.length + if s.inputDone then 0 else 1) + if s.closed then 0 else 1

/-- A run of workers alone. -/
def Worked (c : Config Enc Err) (s t : State ι Enc Err) : Prop := Steps c s t ∧ t.pc = s.pc ∧ t.unread = s.unread

theorem WorkerStep.worked (h : WorkerStep c s t) : Worked c s t := by
  refine ⟨.single (.worker h), ?_⟩
  cases h <;> exact ⟨rfl, rfl⟩

theorem Worked.trans (h : Worked c s t) (h' : Worked c t u) : Worked c s u :=
  ⟨h.1.trans h'.1, h'.2.1.trans h.2.1, h'.2.2.trans h.2.2⟩

theorem LeaderStep.head {P : State ι Enc Err → Prop} (h : LeaderStep c s t) :
    (∃ u, Steps c t u ∧ P u) → ∃ u, Steps c s u ∧ P u :=
  fun ⟨u, hsteps, hu⟩ => ⟨u, .head (.leader h) hsteps, hu⟩

variable {w : ι}

/-- A worker at a chunk has a step, which brings it nearer to the end of the chunk. -/
theorem Inv.busy_step (h : Inv c bufs s) (hw : s.workers w ≠ .idle) :
    ∃ t phase, WorkerStep c s t ∧ t.workers = update s.workers w phase ∧
      phase.weight < (s.workers w).weight ∧ t.watermark = s.watermark ∧ t.claims = s.claims := by
  cases hphase : s.workers w with
  | idle => exact absurd hphase hw
  | claimed g =>
    obtain ⟨chunk, hchunk⟩ := Option.ne_none_iff_exists'.mp (h.registry.waits w g hphase)
    exact ⟨_, _, .take hphase hchunk, rfl, by simp [Phase.weight], rfl, rfl⟩
  | holds g =>
    by_cases hskip : ∃ f, s.errorFloor = some f ∧ f < g
    · obtain ⟨f, hf, hlt⟩ := hskip
      exact ⟨_, _, .skip hphase hf hlt, rfl, by simp [Phase.weight], rfl, rfl⟩
    · refine ⟨_, _, .pass hphase ?_, rfl, by simp [Phase.weight], rfl, rfl⟩
      intro f hf
      by_contra hlt
      exact hskip ⟨f, hf, Nat.lt_of_not_le hlt⟩
  | passed => exact ⟨_, _, .readEol hphase, rfl, by simp [Phase.weight], rfl, rfl⟩
  | parses g chunk eol =>
    cases hparse : c.parse chunk eol with
    | ok => exact ⟨_, _, .parsed hphase hparse, rfl, by simp [Phase.weight], rfl, rfl⟩
    | error => exact ⟨_, _, .failed hphase hparse, rfl, by simp [Phase.weight], rfl, rfl⟩
  | records => exact ⟨_, _, .lower hphase, rfl, by simp [Phase.weight], rfl, rfl⟩

/-- Past the wait the leader ends. -/
theorem Inv.drains (hbufs : ∀ buf ∈ bufs, buf ≠ []) (n : Nat) (h : Inv c bufs s) (hpc : s.pc = .drain)
    (hn : s.claims - s.nextCommit < n) : ∃ t, Steps c s t ∧ t.pc.Ended := by
  induction n generalizing s with
  | zero => cases hn
  | succ n ih =>
    cases hdone : s.done s.nextCommit with
    | some =>
      have hstep := LeaderStep.drain (c := c) hpc hdone
      have hlt := (h.results.done_ok _ _ hdone).2
      exact hstep.head (ih (h.leader hbufs hstep) hpc (by simp only [State.commitNext]; omega))
    | none =>
      by_cases hnone : ∀ k, s.errors k = none
      · exact ⟨_, .single (.leader (.finish hpc hdone hnone)), trivial⟩
      · have hex : ∃ k, s.errors k ≠ none := not_forall.mp hnone
        classical
        obtain ⟨e, he⟩ := Option.ne_none_iff_exists'.mp (Nat.find_spec hex)
        refine ⟨_, .single (.leader (.raise hpc hdone he ?_)), trivial⟩
        intro k hk
        exact not_not.mp (Nat.find_min hex hk)

/-- The place of a leader's step in the round of its loop. -/
def Pc.rank : Pc Err → Nat
  | .poll => 1
  | .close => 2
  | .publish => 3
  | .insert => 4
  | .storeEol => 5
  | .read => 6
  | .check => 7
  | _ => 0

section

omit [DecidableEq ι]

theorem afterRead_pc (s : State ι Enc Err) : s.afterRead.pc.rank < 6 ∧ ¬ s.afterRead.pc.Over := by
  simp only [State.afterRead]
  split_ifs
  · exact ⟨by simp [Pc.rank], id⟩
  · exact ⟨by simp [Pc.rank], id⟩
  · exact ⟨by simp [Pc.rank], id⟩

/-- A read takes a buffer, or finds the end of the input. -/
theorem Inv.read_step (h : Inv c bufs s) (hpc : s.pc = .read) :
    ∃ t, LeaderStep c s t ∧ t.unread < s.unread ∧ t.pc.rank < 6 ∧ ¬ t.pc.Over := by
  have hlive := h.feeding.reading hpc
  cases hreads : s.reads with
  | nil =>
    refine ⟨_, .readNone hpc hreads, ?_, afterRead_pc _⟩
    simp [State.unread, State.afterRead, State.endInput, hlive]
  | cons buf =>
    cases heoc : (s.seg.feed buf s.ready).1.eoc with
    | true =>
      refine ⟨_, .readLast hpc hreads heoc, ?_, afterRead_pc _⟩
      simp only [State.unread, State.afterRead, State.endInput, State.feed, hlive, hreads,
        length_cons, if_true, Bool.false_eq_true, if_false]
      omega
    | false =>
      refine ⟨_, .read hpc hreads heoc, ?_, afterRead_pc _⟩
      simp [State.unread, State.afterRead, State.feed, hlive, hreads]

/-- Each of the leader's steps within a round has a next one. -/
theorem Inv.round_step (h : Inv c bufs s) (hpc : s.pc ≠ .commit) (hover : ¬ s.pc.Over) :
    ∃ t, LeaderStep c s t ∧ t.unread ≤ s.unread ∧ t.pc.rank < s.pc.rank ∧ ¬ t.pc.Over := by
  cases hcase : s.pc with
  | commit => exact absurd hcase hpc
  | check =>
    by_cases hread : s.inputDone = false ∧ s.errorFloor = none ∧ s.published - s.nextCommit < c.window
    · exact ⟨_, .goRead hcase hread.1 hread.2.1 hread.2.2, le_rfl, by simp [Pc.rank], id⟩
    · by_cases hclose : s.errorFloor ≠ none ∧ s.closed = false
      · exact ⟨_, .goClose hcase hclose.1 hclose.2, le_rfl, by simp [Pc.rank], id⟩
      · exact ⟨_, .goPoll hcase hread hclose, le_rfl, by simp [Pc.rank], id⟩
  | read =>
    obtain ⟨t, hstep, hless, hrank, hnot⟩ := h.read_step hcase
    exact ⟨t, hstep, hless.le, hrank, hnot⟩
  | storeEol => exact ⟨_, .storeEol hcase, le_rfl, by simp [Pc.rank], id⟩
  | insert => exact ⟨_, .insert hcase, le_rfl, by simp [Pc.rank, State.insertReady], id⟩
  | publish =>
    refine ⟨_, .publish hcase, le_rfl, ?_, ?_⟩
    · simp only [State.publish]
      split_ifs <;> simp [Pc.rank]
    · simp only [State.publish]
      split_ifs <;> exact id
  | close => exact ⟨_, .close hcase, by simp [State.unread], by simp [Pc.rank], id⟩
  | poll => exact ⟨_, .again hcase, le_rfl, by simp [Pc.rank], id⟩
  | drain | raised | finished => exact absurd (by rw [hcase]; trivial) hover

end

theorem Inv.round (hbufs : ∀ buf ∈ bufs, buf ≠ []) (n : Nat) (h : Inv c bufs s) (hn : s.pc.rank < n)
    (hover : ¬ s.pc.Over) :
    ∃ t, Steps c s t ∧ Inv c bufs t ∧ t.pc = .commit ∧ t.unread ≤ s.unread := by
  induction n generalizing s with
  | zero => cases hn
  | succ n ih =>
    by_cases hpc : s.pc = .commit
    · exact ⟨s, .refl, h, hpc, le_rfl⟩
    · obtain ⟨t, hstep, hunread, hrank, hnot⟩ := h.round_step hpc hover
      obtain ⟨u, hsteps, hu, hcommit, hle⟩ := ih (h.leader hbufs hstep) (by omega) hnot
      exact ⟨u, .head (.leader hstep) hsteps, hu, hcommit, hle.trans hunread⟩

/-- No worker is at a chunk and all that is published is claimed. -/
def State.Quiet (s : State ι Enc Err) : Prop := s.claims = s.watermark ∧ ∀ w, s.workers w = .idle

/-- The leader commits what is there to commit. -/
theorem Inv.commits_all (hbufs : ∀ buf ∈ bufs, buf ≠ []) (n : Nat) (h : Inv c bufs s) (hpc : s.pc = .commit)
    (hquiet : s.Quiet) (hn : s.claims - s.nextCommit < n) :
    ∃ t, Steps c s t ∧ Inv c bufs t ∧ t.pc = .check ∧ t.Quiet ∧ t.unread = s.unread ∧
      t.done t.nextCommit = none := by
  induction n generalizing s with
  | zero => cases hn
  | succ n ih =>
    cases hdone : s.done s.nextCommit with
    | some =>
      have hstep := LeaderStep.commit (c := c) hpc hdone
      have hlt := (h.results.done_ok _ _ hdone).2
      exact hstep.head (ih (h.leader hbufs hstep) hpc hquiet (by simp only [State.commitNext]; omega))
    | none =>
      have hstep := LeaderStep.commits (c := c) hpc hdone
      exact ⟨_, .single (.leader hstep), h.leader hbufs hstep, rfl, hquiet, rfl, hdone⟩

omit [DecidableEq ι] in
/-- Without an error, all that is claimed is committed. -/
theorem Inv.caught_up (h : Inv c bufs s) (hquiet : s.Quiet) (hdone : s.done s.nextCommit = none)
    (hfloor : s.errorFloor = none) : s.nextCommit = s.claims := by
  apply Nat.le_antisymm h.results.commits.1
  by_contra hlt
  have hsettled := h.settled hquiet.2 (Nat.lt_of_not_le hlt)
  have hidle := hquiet.2
  have hfloored := h.results.floored
  grind [Settled]

/-- With the source closed and all workers through, the wait is over. -/
theorem Inv.closes (hbufs : ∀ buf ∈ bufs, buf ≠ []) (h : Inv c bufs s) (hpc : s.pc = .check) (hquiet : s.Quiet)
    (hclosed : s.closed = true)
    (hread : ¬ (s.inputDone = false ∧ s.errorFloor = none ∧ s.published - s.nextCommit < c.window)) :
    ∃ t, Steps c s t ∧ t.pc.Ended := by
  have hpoll := LeaderStep.goPoll (c := c) hpc hread (fun hopen => by rw [hclosed] at hopen; cases hopen.2)
  have hinv := h.leader hbufs hpoll
  have hover : LeaderStep c { s with pc := .poll } { s with pc := .drain } :=
    .waited (s := { s with pc := .poll }) rfl hclosed hquiet.1 hquiet.2
  exact hpoll.head (hover.head ((hinv.leader hbufs hover).drains hbufs _ rfl (Nat.lt_succ_self _)))

variable [Fintype ι]

/-- What the workers still have to do of what is published. -/
def State.load (s : State ι Enc Err) : Nat := 6 * (s.watermark - s.claims) + ∑ w, (s.workers w).weight

theorem sum_update_lt {workers : ι → Phase} {phase : Phase} (h : phase.weight < (workers w).weight) :
    ∑ w', (update workers w phase w').weight < ∑ w', (workers w').weight := by
  apply Finset.sum_lt_sum
  · intro w' _
    obtain rfl | heq := eq_or_ne w' w
    · rw [update_self]
      exact h.le
    · rw [update_of_ne heq]
  · exact ⟨w, Finset.mem_univ w, by rw [update_self]; exact h⟩

theorem sum_update_idle {workers : ι → Phase} {phase : Phase} (h : ∀ w', workers w' = .idle) :
    ∑ w', (update workers w phase w').weight = phase.weight := by
  rw [Finset.sum_eq_single w, update_self]
  · intro w' _ hne
    rw [update_of_ne hne, h w']
    rfl
  · exact fun hw => absurd (Finset.mem_univ w) hw

variable [Nonempty ι]

/-- The workers can finish all that is published. -/
theorem Inv.quiet (n : Nat) (h : Inv c bufs s) (hn : s.load < n) :
    ∃ t, Worked c s t ∧ Inv c bufs t ∧ t.claims = t.watermark ∧ ∀ w, t.workers w = .idle := by
  induction n generalizing s with
  | zero => cases hn
  | succ n ih =>
    by_cases hidle : ∀ w, s.workers w = .idle
    · rcases Nat.lt_or_ge s.claims s.watermark with hlt | hge
      · obtain ⟨w⟩ := ‹Nonempty ι›
        have hstep := WorkerStep.claim (c := c) (hidle w) hlt
        have hload : State.load ({ s with claims := s.claims + 1 }.move w (.claimed s.claims)) < s.load := by
          simp only [State.load, State.move]
          rw [sum_update_idle hidle]
          simp only [Phase.weight]
          omega
        obtain ⟨t, hworked, ht⟩ := ih (h.worker hstep) (by omega)
        exact ⟨t, hstep.worked.trans hworked, ht⟩
      · exact ⟨s, ⟨.refl, rfl, rfl⟩, h, Nat.le_antisymm h.claims_le hge, hidle⟩
    · obtain ⟨w, hw⟩ := not_forall.mp hidle
      obtain ⟨t, phase, hstep, hworkers, hless, hwater, hclaims⟩ := h.busy_step hw
      have hload : t.load < s.load := by
        have hsum := sum_update_lt hless
        simp only [State.load]
        rw [hworkers]
        omega
      obtain ⟨u, hworked, hu⟩ := ih (h.worker hstep) (by omega)
      exact ⟨u, hstep.worked.trans hworked, hu⟩

/-- From every state of a run the leader can end. -/
theorem Inv.ends (hbufs : ∀ buf ∈ bufs, buf ≠ []) (n : Nat) (h : Inv c bufs s) (hn : s.unread < n) :
    ∃ t, Steps c s t ∧ t.pc.Ended := by
  induction n generalizing s with
  | zero => cases hn
  | succ n ih =>
    by_cases hover : s.pc.Over
    · cases hpc : s.pc with
      | drain => exact h.drains hbufs _ hpc (Nat.lt_succ_self _)
      | raised | finished => exact ⟨s, .refl, by rw [hpc]; trivial⟩
      | _ => rw [hpc] at hover; exact absurd hover id
    · -- to the start of a round, with the workers through, and all that can be committed
      obtain ⟨s₁, hto₁, h₁, hpc₁, hle₁⟩ := h.round hbufs _ (Nat.lt_succ_self _) hover
      obtain ⟨s₂, ⟨hto₂, hpc₂, hle₂⟩, h₂, hquiet₂⟩ := h₁.quiet _ (Nat.lt_succ_self _)
      obtain ⟨s₃, hto₃, h₃, hpc, hquiet, hle₃, hdone⟩ :=
        h₂.commits_all hbufs _ (hpc₂.trans hpc₁) hquiet₂ (Nat.lt_succ_self _)
      have hto : Steps c s s₃ := hto₁.trans (hto₂.trans hto₃)
      suffices hend : ∃ t, Steps c s₃ t ∧ t.pc.Ended by
        obtain ⟨t, hsteps, ht⟩ := hend
        exact ⟨t, hto.trans hsteps, ht⟩
      by_cases hfloor : s₃.errorFloor = none
      · have hsync := h₃.feeding.synced (by rw [hpc]; simp)
        have hup := h₃.caught_up hquiet hdone hfloor
        have hwindow : s₃.published - s₃.nextCommit < c.window := by
          have := c.window_ge
          have := hquiet.1
          omega
        cases hinput : s₃.inputDone with
        | false =>
          have hgo := LeaderStep.goRead (c := c) hpc hinput hfloor hwindow
          obtain ⟨t, hstep, hread, -⟩ := (h₃.leader hbufs hgo).read_step rfl
          have hsame : ({ s₃ with pc := .read } : State ι Enc Err).unread = s₃.unread := rfl
          exact hgo.head (hstep.head (ih ((h₃.leader hbufs hgo).leader hbufs hstep) (by omega)))
        | true =>
          have hclosed := h₃.closed_of_done (by simp [hpc]) hinput
          exact h₃.closes hbufs hpc hquiet hclosed (fun hread => by rw [hinput] at hread; cases hread.1)
      · cases hclosed : s₃.closed with
        | true => exact h₃.closes hbufs hpc hquiet hclosed (fun hread => hfloor hread.2.1)
        | false =>
          have hgo := LeaderStep.goClose (c := c) hpc hfloor hclosed
          have hclose : LeaderStep c { s₃ with pc := .close } { s₃ with closed := true, pc := .poll } :=
            .close (s := { s₃ with pc := .close }) rfl
          have hinv := (h₃.leader hbufs hgo).leader hbufs hclose
          have hdrop : ({ s₃ with closed := true, pc := .poll } : State ι Enc Err).unread < s₃.unread := by
            simp [State.unread, hclosed]
          exact hgo.head (hclose.head (ih hinv (by omega)))

end Progress

section Outcomes

variable {ι Enc Err : Type} {c : Config Enc Err} {bufs : List (List UInt8)} {s : State ι Enc Err}

theorem fails_lt (h : Fails c bufs g e) : g < (chunksOf c bufs).length := by
  by_contra hlt
  rw [Fails, resultOf, getElem?_eq_none (Nat.le_of_not_lt hlt)] at h
  cases h

theorem Inv.all_parse (h : Inv c bufs s) (hgood : ∀ g e, ¬ Fails c bufs g e) (hend : s.pc.Ended) :
    s.pc = .finished ∧ s.nextCommit = (chunksOf c bufs).length := by
  have hout := h.outcome
  cases hpc : s.pc with
  | finished =>
    rw [hpc] at hout
    exact ⟨rfl, hout⟩
  | raised e =>
    rw [hpc] at hout
    exact absurd hout (hgood _ e)
  | _ => rw [hpc] at hend; exact absurd hend id

theorem Inv.lowest_fails (h : Inv c bufs s) (hm : Fails c bufs m e)
    (hlow : ∀ k, k < m → ∀ e', ¬ Fails c bufs k e') (hend : s.pc.Ended) :
    s.pc = .raised e ∧ s.nextCommit = m := by
  have hout := h.outcome
  have hparsed : ¬ m < s.nextCommit := by
    intro hlt
    obtain ⟨enc, hparses⟩ := h.results.commits.2 m hlt
    exact hparses.not_fails hm
  cases hpc : s.pc with
  | finished =>
    rw [hpc] at hout
    have hlength : s.nextCommit = (chunksOf c bufs).length := hout
    exact absurd (fails_lt hm) (by omega)
  | raised e' =>
    rw [hpc] at hout
    have heq : s.nextCommit = m := by
      by_contra hne
      exact hlow s.nextCommit (by omega) e' hout
    rw [heq] at hout
    have hsame : some (Except.error e') = (some (.error e) : Option (Except Err (Option Enc))) :=
      Eq.trans (Eq.symm hout) hm
    cases hsame
    exact ⟨rfl, heq⟩
  | _ => rw [hpc] at hend; exact absurd hend id

end Outcomes

/-- In every state of every run the leader has committed the row groups of the first chunks, in order.
If no chunk fails it ends with those of all chunks; otherwise it raises the error of the lowest chunk
that fails, with all lower chunks parsed and committed. It can always come to its end, and no worker
finds a chunk missing. -/
theorem ceremony_outcome {ι Enc Err : Type} [DecidableEq ι] [Fintype ι] [Nonempty ι] (c : Config Enc Err)
    (bufs : List (List UInt8)) (hbufs : ∀ buf ∈ bufs, buf ≠ []) (s : State ι Enc Err) (h : Reachable c bufs s) :
    s.committed = rowGroups c bufs s.nextCommit ∧ (∀ i, i < s.nextCommit → ∃ enc, Parses c bufs i enc) ∧
      ((∀ g e, ¬ Fails c bufs g e) → s.pc.Ended →
        s.pc = .finished ∧ s.committed = rowGroups c bufs (chunksOf c bufs).length) ∧
      (∀ m e, Fails c bufs m e → (∀ k, k < m → ∀ e', ¬ Fails c bufs k e') → s.pc.Ended →
        s.pc = .raised e ∧ s.nextCommit = m) ∧
      (∃ t, Steps c s t ∧ t.pc.Ended) ∧ s.failedHard = false := by
  have hinv := h.inv hbufs
  refine ⟨hinv.results.committed, hinv.results.commits.2, ?_, ?_, hinv.ends hbufs _ (Nat.lt_succ_self _), hinv.hard⟩
  · intro hgood hend
    obtain ⟨hpc, hlength⟩ := hinv.all_parse hgood hend
    refine ⟨hpc, ?_⟩
    rw [hinv.results.committed, hlength]
  · exact fun m e hm hlow hend => hinv.lowest_fails hm hlow hend

/-- Three chunks of one line, of which a line `!` fails. -/
def sampleConfig : Config Nat Nat where
  rowsPerChunk := 1
  window := 2
  parse chunk _ := if chunk.bytes = [33, 10] then .error chunk.firstLineno else .ok (some chunk.bytes.length)
  rows_pos := Nat.le_refl 1
  window_ge := Nat.le_refl 2

/-- Whatever two workers do with the chunks of `a`, `!`, `!`, the error is that of the second line. -/
theorem ceremony_outcome_sample : Fails sampleConfig [[97, 10, 33], [10, 33, 10]] 1 2 ∧
      ∃ t : State Bool Nat Nat, Steps sampleConfig (State.init sampleConfig [[97, 10, 33], [10, 33, 10]]) t ∧
        t.pc.Ended := by
  refine ⟨rfl, ?_⟩
  exact (ceremony_outcome sampleConfig [[97, 10, 33], [10, 33, 10]] (by simp)
    (State.init sampleConfig [[97, 10, 33], [10, 33, 10]]) .init).2.2.2.2.1

end CopyParallel
