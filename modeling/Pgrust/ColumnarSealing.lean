import Pgrust.ColumnarIntPlan
import Pgrust.ColumnarTextChunk

/-!
# Sealing a row group

`seal_rg_body`: the body image of a row group with its chunks, and what the footer
keeps of it. The serial writer and the parallel chunk encoder seal through it. What
a process brings along (compression libraries, hasher, environment switches) is a
parameter.
-/
namespace ColumnarSealing

open ByteImage ColumnarFormat ColumnarCodec ColumnarIntChunk ColumnarAppend ColumnarTextChunk Option
open ColumnarIntPlan ColumnarHll

def cbRgMagic : Nat := 0x43425247

def rgFlagFrozen : Nat := 1
def rgFlagSums : Nat := 2
def rgFlagClustered : Nat := 4
def rgFlagLenstats : Nat := 8
def rgFlagZerocnt : Nat := 16

inductive SortKeyKind where
  | int16
  | int32
  | int64
  | textC
  deriving DecidableEq, Repr

def sortKindOf : ColType → SortKeyKind
  | .i16 => .int16
  | .i32 | .date => .int32
  | .i64 | .timestamp => .int64
  | .text => .textC

structure CbWriterOpts where
  clusterKey : List (Nat × SortKeyKind)
  presortKey : List (Nat × SortKeyKind)
  codec : List CodecChoice
  zstdLevel : Int
  delta : List Bool

/-- What a process brings along: the compression libraries, the default hasher, the
floating-point estimate of a sketch, the ingest sorter, and the environment switches. -/
structure Host where
  lib : Compressors
  hashBytes : List UInt8 → BitVec 64
  estimate : Hll → Nat
  ingestSort : List (Nat × SortKeyKind) → List Row → Run (List Row)
  stitchWrite : Bool
  ndvRegs : Bool
  dictFrames : Bool
  dictFrameTarget : Nat

/-- What the footer keeps of a chunk: its offset in the body with its zone map, the
exact sum, and the dictionary where it was captured. -/
structure ColMeta where
  chunk : Nat × I64 × I64
  sum : Int
  dict : Option (List (List UInt8))
  deriving DecidableEq, Repr

structure SealedRg where
  body : List UInt8
  nrows : Nat
  flags : Nat
  chunks : List (Nat × I64 × I64)
  sums : List Int
  lenstats : List (Nat × Nat × Nat)
  zerocnt : List Nat
  dicts : List (Option (List (List UInt8)))

section Seal

variable (host : Host) (opts : CbWriterOpts)

/-- The codec settings of column `c`; a short option list is an index out of range. -/
def codecCtx (c : Nat) : Option CodecCtx := do
  let choice ← opts.codec[c]?
  let delta ← opts.delta[c]?
  some ⟨choice, opts.zstdLevel, delta, host.dictFrames, host.dictFrameTarget⟩

def sealColumn (ng c : Nat) (capture : Bool) (body : List UInt8) (b : ColBuilder) :
    Option (List UInt8 × ColMeta) := do
  let body := padTo 64 body
  let cc ← codecCtx host opts c
  match b with
  | .int vals => do
    let (body', m) ← encodeIntChunk host.lib cc body vals ng
    some (body', ⟨(body.length, m), (vals.map BitVec.toInt).sum, none⟩)
  | .text tb => do
    let (body', m, cap) ← encodeTextChunk host.lib cc body tb ng capture
    some (body', ⟨(body.length, m), 0, cap⟩)

/-- The chunks of the builders from column `c` on, one behind the other. -/
def sealColumns (ng : Nat) : Nat → List Bool → List UInt8 → List ColBuilder → Option (List UInt8 × List ColMeta)
  | _, _, body, [] => some (body, [])
  | c, capture :: captures, body, b :: builders => do
    let (body, col) ← sealColumn host opts ng c capture body b
    let (body, cols) ← sealColumns ng (c + 1) captures body builders
    some (body, col :: cols)
  | _, [], _, _ :: _ => none

end Seal

/-- Length statistics of one granule: octet sum, row count, empty strings. -/
def granuleLenstat (tb : TextBuilder) (nrows g : Nat) : Nat × Nat × Nat :=
  let lens := (granuleSlice tb.offs g).map Prod.snd
  (lens.sum, min (g * granuleRows + granuleRows) nrows - g * granuleRows, lens.count 0)

def textBuilders (builders : List ColBuilder) : List TextBuilder :=
  builders.filterMap (fun b => match b with
    | .text tb => some tb
    | .int _ => none)

/-- Granule slots past the last row stay zero. -/
def lenstatsOf (builders : List ColBuilder) (nrows : Nat) : List (Nat × Nat × Nat) :=
  (List.range granulesPerRg).flatMap (fun g => (textBuilders builders).map (fun tb =>
    if g < granuleCount nrows then granuleLenstat tb nrows g else (0, 0, 0)))

def granuleZeros : ColBuilder → Nat → Nat
  | .int vals, g => (granuleSlice vals g).count 0
  | .text tb, g => ((granuleSlice tb.offs g).map Prod.snd).count 0

def zerocntOf (builders : List ColBuilder) (nrows : Nat) : List Nat :=
  (List.range granulesPerRg).flatMap (fun g => builders.map (fun b =>
    if g < granuleCount nrows then granuleZeros b g else 0))

/-- The header of a row group before its length is known. -/
def rgHeader (nrows xid flags : Nat) : List UInt8 :=
  putU32 cbRgMagic ++ putU32 nrows ++ putU32 xid ++ putU32 flags ++ putU64 0 ++ putU64 0

/-- The length goes into its word of the header, and the body is padded to it. -/
def patchLength (body : List UInt8) : List UInt8 :=
  padTo 64 (body.take 16 ++ putU64 (align64 body.length) ++ body.drop 24)

/-- `seal_rg_body`. The statistics have slots for the granules of a full row group
only; more rows are an index out of range. -/
def sealRgBody (host : Host) (opts : CbWriterOpts) (builders : List ColBuilder) (nbuf xid flags : Nat)
    (capture : List Bool) : Option SealedRg := do
  let (body, cols) ← sealColumns host opts (granuleCount nbuf) 0 capture (rgHeader nbuf xid flags) builders
  if granulesPerRg < granuleCount nbuf ∧ builders ≠ [] then none
  else some { body := patchLength body
              nrows := nbuf
              flags := flags
              chunks := cols.map ColMeta.chunk
              sums := cols.map ColMeta.sum
              lenstats := lenstatsOf builders nbuf
              zerocnt := zerocntOf builders nbuf
              dicts := cols.map ColMeta.dict }

/-- A dictionary is handed out only where it was asked for. -/
def gate (capture : Bool) (dict : Option (List (List UInt8))) : Option (List (List UInt8)) :=
  if capture then dict else none

def ColMeta.gate (capture : Bool) (m : ColMeta) : ColMeta := { m with dict := ColumnarSealing.gate capture m.dict }

section Capture

variable {host : Host} {opts : CbWriterOpts} {ng : Nat}

theorem sealColumn_capture (c : Nat) (capture : Bool) (body : List UInt8) (b : ColBuilder) :
    sealColumn host opts ng c capture body b =
      (sealColumn host opts ng c true body b).map (fun r => (r.1, r.2.gate capture)) := by
  simp only [sealColumn]
  cases codecCtx host opts c with
  | none => rfl
  | some cc =>
    cases b with
    | int vals =>
      cases h : encodeIntChunk host.lib cc (padTo 64 body) vals ng <;>
        simp [ColMeta.gate, gate]
    | text tb =>
      simp only [encodeTextChunk]
      cases hs : tb.offs.mapM (textSlice tb) with
      | none => rfl
      | some strings =>
        cases hp : textPlan host.lib cc strings ng with
        | none => simp [hp]
        | some => cases capture <;> simp [hp, ColMeta.gate, gate, capturedDict]

/-- What is captured changes nothing but the dictionaries handed out. -/
theorem sealColumns_capture (c : Nat) (captures : List Bool) (body : List UInt8) (builders : List ColBuilder) :
    sealColumns host opts ng c captures body builders =
      (sealColumns host opts ng c (captures.map (fun _ => true)) body builders).map
        (fun r => (r.1, List.zipWith ColMeta.gate captures r.2)) := by
  induction builders generalizing c captures body with
  | nil => cases captures <;> simp [sealColumns]
  | cons b builders ih =>
    cases captures with
    | nil => rfl
    | cons capture captures =>
      simp only [sealColumns, List.map_cons, bind_eq_bind]
      rw [sealColumn_capture c capture]
      cases sealColumn host opts ng c true body b with
      | none => rfl
      | some r =>
        simp only [map_some, bind_some]
        rw [ih]
        cases sealColumns host opts ng (c + 1) (captures.map (fun _ => true)) r.1 builders <;> rfl

/-- One entry per builder, and a capture flag for each. -/
theorem sealColumns_length (h : sealColumns host opts ng c captures body builders = some r) :
    r.2.length = builders.length ∧ builders.length ≤ captures.length := by
  induction builders generalizing c captures body r with
  | nil => cases captures <;> cases h <;> simp
  | cons b builders ih =>
    cases captures with
    | nil => cases h
    | cons =>
      obtain ⟨x, -, h⟩ := bind_eq_some_iff.mp h
      obtain ⟨y, hy, h⟩ := bind_eq_some_iff.mp h
      cases h
      simpa using ih hy

end Capture

theorem zipWith_snd {α β γ : Type} (f : β → γ) (as : List α) (bs : List β)
    (h : bs.length ≤ as.length) : List.zipWith (fun _ b => f b) as bs = bs.map f := by
  induction bs generalizing as with
  | nil => simp
  | cons b bs ih =>
    cases as with
    | nil => simp at h
    | cons a as => simp [ih as (by simpa using h)]

theorem sealRgBody_capture (host : Host) (opts) (builders : List ColBuilder)
    (nbuf xid flags : Nat) (captures : List Bool) :
    sealRgBody host opts builders nbuf xid flags captures =
      (sealRgBody host opts builders nbuf xid flags (captures.map (fun _ => true))).map
        (fun s => { s with dicts := List.zipWith gate captures s.dicts }) := by
  simp only [sealRgBody, bind_eq_bind]
  rw [sealColumns_capture]
  cases h : sealColumns host opts (granuleCount nbuf) 0 (captures.map (fun _ => true))
      (rgHeader nbuf xid flags) builders with
  | none => rfl
  | some r =>
    obtain ⟨hcols, hcaps⟩ := sealColumns_length h
    rw [List.length_map, ← hcols] at hcaps
    simp only [map_some, bind_some]
    split_ifs
    · rfl
    · simp [List.zipWith_map_right, ColMeta.gate, zipWith_snd _ _ _ hcaps]

end ColumnarSealing
