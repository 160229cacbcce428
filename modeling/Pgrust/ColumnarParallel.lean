import Pgrust.ColumnarWriter

/-!
# Parallel ingest

Workers encode whole row groups on their own, a leader commits them in input order,
and a pool of threads may take the stitch over. The part is the one the serial
writer produces from the same rows, for every interleaving of the pool.
-/
namespace ColumnarParallel

open ByteImage ColumnarFormat ColumnarAppend ColumnarSealing ColumnarFooter ColumnarStitch ColumnarHll
open ColumnarWriter

structure ParallelIngestPlan where
  xid : Nat
  flags : Nat
  coltypes : List ColType
  opts : CbWriterOpts
  wantNdv : Bool
  wantSorted : Bool
  capture : List Bool

/-- A writer that sorts on ingest has no plan. -/
def parallelIngestPlan (w : CbWriter) : Option ParallelIngestPlan :=
  if w.sorter.isSome then none
  else some
    { xid := w.xid
      flags := (if w.frozen then rgFlagFrozen else 0) ||| rgFlagSums ||| rgFlagLenstats |||
        rgFlagZerocnt
      coltypes := w.coltypes
      opts := w.opts
      wantNdv := w.cols.all (fun col => col.ndv.isSome)
      wantSorted := w.cols.all (fun col => col.sorted.isSome)
      capture := (List.range w.coltypes.length).map (fun c =>
        match w.stitch with
        | none => false
        | some cols => (cols.getD c none).isSome) }

/-- Chunk-internal order of one column with the chunk's first and last values. -/
structure ColOrderProbe where
  sorted : Bool
  firstInt : I64
  lastInt : I64
  firstText : List UInt8
  lastText : List UInt8

/-- A worker-encoded row group: per column the sketch and the order probe, each where
the part tracks it. -/
structure EncodedRg where
  sealed : SealedRg
  trackers : List (Option Hll × Option ColOrderProbe)

structure RgChunkEncoder where
  cols : List ColState
  nbuf : Nat
  first : List (I64 × List UInt8)
  hasPrev : Bool

section Encoder

variable (host : Host) (plan : ParallelIngestPlan)

def encoderCol (t : ColType) : ColState where
  builder := .fresh t
  ndv := if plan.wantNdv then some .empty else none
  sorted := if plan.wantSorted then some true else none
  prevInt := 0
  prevText := []

def RgChunkEncoder.new : RgChunkEncoder where
  cols := plan.coltypes.map (encoderCol plan)
  nbuf := 0
  first := plan.coltypes.map (fun _ => (0, []))
  hasPrev := false

/-- The first row leaves its values in the trackers, from where they are copied. -/
def RgChunkEncoder.appendRow (e : RgChunkEncoder) (row : Row) : Run RgChunkEncoder := do
  let cols ← appendRowInto host.hashBytes e.hasPrev plan.coltypes e.cols row.values row.isnull
  .ok { cols := cols
        nbuf := e.nbuf + 1
        first := if e.hasPrev then e.first else cols.map (fun col => (col.prevInt, col.prevText))
        hasPrev := true }

def probeOf (col : ColState) (first : I64 × List UInt8) : Option ColOrderProbe :=
  col.sorted.map (fun sorted => ⟨sorted, first.1, col.prevInt, first.2, col.prevText⟩)

def RgChunkEncoder.seal (e : RgChunkEncoder) : Run EncodedRg :=
  if e.nbuf = 0 then .error .panicked
  else do
    let sealed ← orPanic (sealRgBody host plan.opts (e.cols.map ColState.builder) e.nbuf plan.xid
      plan.flags plan.capture)
    .ok ⟨sealed, List.zipWith (fun col first => (col.ndv, probeOf col first)) e.cols e.first⟩

/-- One worker: the rows of one group through a fresh encoder. -/
def encodeRg (rows : List Row) : Run EncodedRg := do
  let e ← rows.foldlM (RgChunkEncoder.appendRow host plan) (RgChunkEncoder.new plan)
  e.seal host plan

end Encoder

/-- A sketch that is missing is an `expect` that fails. -/
def commitNdv : Option Hll → Option Hll → Run (Option Hll)
  | none, _ => .ok none
  | some n, some h => .ok (some (n.merge h))
  | some _, none => .error .panicked

/-- The chunk's first value lies below the last one before the chunk. -/
def seamBroken (t : ColType) (first : I64 × List UInt8) (col : ColState) : Bool :=
  if t.isText then decide (first.2 < col.prevText) else first.1.slt col.prevInt

/-- The order tracker is carried over the seam while the column is sorted; a probe that
is missing is an `expect` that fails. -/
def commitOrder (hasPrev : Bool) (t : ColType) (col : ColState) (probe : Option ColOrderProbe) : Run ColState :=
  match col.sorted, probe with
  | none, _ => .ok col
  | some _, none => .error .panicked
  | some false, some _ => .ok col
  | some true, some p =>
    if !p.sorted || (hasPrev && seamBroken t (p.firstInt, p.firstText) col) then
      .ok { col with sorted := some false }
    else if t.isText then .ok { col with prevText := p.lastText }
    else .ok { col with prevInt := p.lastInt }

/-- The trackers of one column take over what a worker has seen. -/
def commitCol (hasPrev : Bool) (t : ColType) (col : ColState) (hll : Option Hll)
    (probe : Option ColOrderProbe) : Run ColState := do
  let ndv ← commitNdv col.ndv hll
  commitOrder hasPrev t { col with ndv := ndv } probe

def commitCols (hasPrev : Bool) : List ColType → List ColState →
    List (Option Hll × Option ColOrderProbe) → Run (List ColState)
  | [], [], _ => .ok []
  | t :: ts, col :: cols, tr :: trs => do
    let col ← commitCol hasPrev t col tr.1 tr.2
    let cols ← commitCols hasPrev ts cols trs
    .ok (col :: cols)
  | _, _, _ => .error .panicked

/-- `commit_encoded_rg` behind the stitch. -/
def commitEncoded (w : CbWriter) (enc : EncodedRg) : Run CbWriter := do
  let w ← w.commitRg enc.sealed
  let cols ← commitCols w.hasPrev w.coltypes w.cols enc.trackers
  .ok { w with cols := cols, hasPrev := w.hasPrev || decide (0 < enc.sealed.nrows) }

/-- The interners of a fresh part, dealt to at most sixteen threads. -/
def installStitchPool (w : CbWriter) (nthreads : Nat) : CbWriter × List (List (Nat × StitchCol)) :=
  match w.stitchPool, w.stitch with
  | none, some cols =>
    let live := (cols.filter Option.isSome).length
    if w.rgs ≠ [] ∨ live = 0 then (w, [])
    else
      let n := min (max 1 (min nthreads 16)) live
      let assign := dealFrom n 0 cols
      ({ w with stitch := none, stitchPool := some assign },
        (List.range n).map (ownedBy assign cols))
  | _, _ => (w, [])

/-- What the leader does for one encoded row group: the sends to the owners of its
columns or the inline registration, then the commit. -/
def commitActions (w : CbWriter) (enc : EncodedRg) : List (Actors.Action CbWriter StitchMsg) :=
  match w.stitchPool with
  | some assign => (stitchSends assign enc.sealed.dicts).map (fun s => .send s.1 s.2) ++
      [.act (fun w => (commitEncoded w enc).toOption)]
  | none => [.act (fun w => (commitEncoded (w.registerStitch enc.sealed) enc).toOption)]

/-- The leader with its encoded row groups in input order, and the threads of the pool
where one is asked for. -/
def loadConfig (w : CbWriter) (pool : Option Nat) (encs : List EncodedRg) :
    Actors.Config CbWriter (List (Nat × StitchCol)) StitchMsg :=
  let (w, threads) := match pool with
    | some n => installStitchPool w n
    | none => (w, [])
  { leader := w
    program := encs.flatMap (commitActions w)
    workers := threads.map (fun cols => ⟨cols, []⟩) }

/-- Consecutive groups of a row group's size; the last one may be shorter. -/
def rgGroups (rows : List Row) : List (List Row) :=
  match rows with
  | [] => []
  | r :: rest => (r :: rest).take rgRows :: rgGroups ((r :: rest).drop rgRows)
termination_by rows.length
decreasing_by
  simp [rgRows]

/-- The serial writer: every row, then `finish`. -/
def serialLoad (host : Host) (w : CbWriter) (rows : List Row) : Run (List UInt8) := do
  let w ← w.appendAll host rows
  w.finish host []

end ColumnarParallel
