import Pgrust.ColumnarCodec
import Pgrust.ColumnarSketch

/-!
# Encoding fixed-width chunks

One row group of an integer, date or timestamp column: the choice between CONST,
FOR, RAW and DELTAFOR, the codec menu, and the chunk image with its zone maps and
bloom filters.
-/
namespace ColumnarIntChunk

open ByteImage ColumnarFormat ColumnarCodec ColumnarSketch

/-- `a - b` on `i64`, which panics on overflow. -/
def checkedSub (a b : I64) : Option I64 :=
  if -2 ^ 63 ≤ a.toInt - b.toInt ∧ a.toInt - b.toInt < 2 ^ 63 then some (a - b) else none

/-- `a + b` on `i64`, which panics on overflow. -/
def checkedAdd (a b : I64) : Option I64 :=
  if -2 ^ 63 ≤ a.toInt + b.toInt ∧ a.toInt + b.toInt < 2 ^ 63 then some (a + b) else none

def i64MinOf (a b : I64) : I64 := if b.toInt < a.toInt then b else a
def i64MaxOf (a b : I64) : I64 := if a.toInt < b.toInt then b else a

/-- The rows of granule `g`. -/
def granuleSlice {α : Type} (vals : List α) (g : Nat) : List α := (vals.drop (g * granuleRows)).take granuleRows

/-- The least and greatest of the given words, from the empty interval on. -/
def minmaxOf (vals : List I64) : I64 × I64 :=
  vals.foldl (fun m v => (i64MinOf m.1 v, i64MaxOf m.2 v)) (i64Max, i64Min)

def granuleMinmax {α : Type} (vals : List α) (f : α → I64) (g : Nat) : I64 × I64 :=
  minmaxOf ((granuleSlice vals g).map f)

def bloomMinNdv : Nat := 4096

/-- Blooms are armed where granules cover most of the chunk's range and the chunk
has many distinct values. -/
def bloomArmed (vals : List I64) (min max : I64) (gmm : List (I64 × I64)) : Bool :=
  let range := max.toInt - min.toInt
  if range = 0 ∨ gmm.isEmpty then false
  else
    let sum := (gmm.map (fun m => m.2.toInt - m.1.toInt)).sum
    if sum.tdiv gmm.length * 2 < range then false
    else bloomMinNdv ≤ vals.dedup.length

/-- The plain FOR or RAW payload of granule `g`. -/
def encIntGranule (vals : List I64) (g : Nat) (encoding : Encoding) (width : Nat) (base : I64) :
    Option (List UInt8) :=
  match encoding with
  | .for =>
    if width = 1 ∨ width = 2 ∨ width = 4 then
      ((granuleSlice vals g).mapM
        (fun v => (checkedSub v base).map (fun d => leBytes width d.toNat))).map List.flatten
    else none
  | .raw => some ((granuleSlice vals g).map putI64).flatten
  | _ => none

/-- The byte width a range of values needs. -/
def rangeWidth (range : Nat) : Nat :=
  if range ≤ 0xFF then 1 else if range ≤ 0xFFFF then 2 else if range ≤ 0xFFFFFFFF then 4 else 8

/-- The wrapping differences of neighbouring rows. -/
def deltas : List I64 → List I64
  | [] => []
  | [_] => []
  | a :: b :: rest => (b - a) :: deltas (b :: rest)

/-- The least and greatest delta, zero where there is none. -/
def deltaMinmax : List I64 → I64 × I64
  | [] => (0, 0)
  | d :: rest => rest.foldl (fun m v => (i64MinOf m.1 v, i64MaxOf m.2 v)) (d, d)

def deltaWidth (dmin dmax : I64) : Nat :=
  let range := (dmax.toInt - dmin.toInt).toNat
  if range = 0 then 0 else rangeWidth range

/-- The DELTAFOR image of the rows of a granule: first row, least delta, width, and
the deltas above the least one at that width. -/
def deltaImage (v : List I64) : Option (List UInt8) :=
  match v with
  | [] => none
  | first :: _ =>
    let ds := deltas v
    let dmin := (deltaMinmax ds).1
    let width := deltaWidth dmin (deltaMinmax ds).2
    some (putI64 first ++ putI64 dmin ++ [UInt8.ofNat width] ++ List.replicate 7 0 ++
      (ds.map (fun d => leBytes width (d - dmin).toNat)).flatten)

def encDeltaGranule (vals : List I64) (g : Nat) : Option (List UInt8) := deltaImage (granuleSlice vals g)

/-- What the encoder has decided for a chunk: stored frames carry their raw length. -/
structure IntPlan where
  encoding : Encoding
  width : Nat
  codec : Codec
  frames : List (List UInt8 × Nat)
  payloadLen : Nat

def framesLen (frames : List (List UInt8 × Nat)) : Nat := (frames.map (fun f => frameLen f.1.length)).sum

section Encoder

variable (lib : Compressors) (cc : CodecCtx)

def intEncoding (min max : I64) : Encoding × Nat :=
  if min = max then (.const, 0)
  else
    let w := rangeWidth (max.toInt - min.toInt).toNat
    if w = 8 then (.raw, 8) else (.for, w)

/-- Every granule of the plain payload, compressed. -/
def plainFrames (vals : List I64) (ng : Nat) (encoding : Encoding) (width : Nat) (min : I64)
    (c : Codec) : Option (List (List UInt8 × Nat)) :=
  (List.range ng).mapM (fun g => do
    let plain ← encIntGranule vals g encoding width min
    let comp ← cc.compress lib c plain
    some (comp, plain.length))

/-- The plain arm: sample granule 0, and keep the frames only if the whole chunk
saves a tenth. -/
def plainPlan (vals : List I64) (ng : Nat) (min max : I64) : Option IntPlan := do
  let (encoding, width) := intEncoding min max
  if encoding = .const then some ⟨.const, 0, .none, [], 0⟩
  else do
    let plain ← encIntGranule vals 0 encoding width min
    match cc.pick lib plain (encoding = .for ∧ width ≤ 2) with
    | none => some ⟨encoding, width, .none, [], vals.length * width⟩
    | some c => do
      let frames ← plainFrames lib cc vals ng encoding width min c
      if framesLen frames * 10 ≤ (frames.map Prod.snd).sum * 9 then
        some ⟨encoding, width, c, frames, framesLen frames⟩
      else some ⟨encoding, width, .none, [], vals.length * width⟩

/-- One stored delta frame: the image itself where compression does not shrink it. -/
def deltaFrame (dcodec : Codec) (img : List UInt8) : Option (List UInt8 × Nat) :=
  match dcodec with
  | .none => some (img, img.length)
  | c => do
    let comp ← cc.compress lib c img
    some (if img.length ≤ comp.length then img else comp, img.length)

def deltaFrames (vals : List I64) (ng : Nat) (dcodec : Codec) : Option (List (List UInt8 × Nat)) :=
  (List.range ng).mapM (fun g => do
    let img ← encDeltaGranule vals g
    deltaFrame lib cc dcodec img)

/-- The delta arm replaces the plain one when it saves a tenth of its final size. -/
def choosePlan (vals : List I64) (ng : Nat) (plan : IntPlan) : Option IntPlan :=
  if cc.delta ∧ plan.encoding ≠ .const then do
    let img ← encDeltaGranule vals 0
    let dcodec := (cc.pick lib img false).getD .none
    let dframes ← deltaFrames lib cc vals ng dcodec
    if framesLen dframes * 10 ≤ plan.payloadLen * 9 then
      some ⟨.deltaFor, 0, dcodec, dframes, framesLen dframes⟩
    else some plan
  else some plan

end Encoder

/-- The zone-map words of block `b` of granule `g`; empty blocks hold the empty interval. -/
def blockMinmax (vals : List I64) (g b : Nat) : I64 × I64 :=
  minmaxOf ((vals.drop (g * granuleRows + b * blockRows)).take blockRows)

def minmaxBytes (m : I64 × I64) : List UInt8 := putI64 m.1 ++ putI64 m.2

def blockZmBytes (vals : List I64) (ng : Nat) : List UInt8 :=
  ((List.range (ng * blocksPerGranule)).map (fun i =>
    minmaxBytes (blockMinmax vals (i / blocksPerGranule) (i % blocksPerGranule)))).flatten

def bloomSection (vals : List I64) (ng : Nat) : List UInt8 :=
  ((List.range ng).map (fun g => bloomOf (granuleSlice vals g))).flatten

/-- The offset the granule directory records for granule `g`. -/
def IntPlan.granuleOff (plan : IntPlan) (g : Nat) : Nat :=
  if plan.codec ≠ .none ∨ plan.encoding = .deltaFor then framesLen (plan.frames.take g)
  else g * granuleRows * plan.width

def intFlags (vals : List I64) (min max : I64) (gmm : List (I64 × I64)) : Nat :=
  if (intEncoding min max).1 = .const then 0
  else chunkFlagBlockZm ||| (if bloomArmed vals min max gmm then chunkFlagBloom else 0)

/-- The payload behind a body that ends on a chunk's payload offset. -/
def intPayload (body : List UInt8) (vals : List I64) (ng : Nat) (min : I64) (plan : IntPlan) :
    Option (List UInt8) :=
  match plan.encoding with
  | .const => some body
  | .deltaFor => some (plan.frames.foldl (fun body f => pushFrame body f.2 f.1) body)
  | .for | .raw =>
    if plan.codec ≠ .none then some (plan.frames.foldl (fun body f => pushFrame body f.2 f.1) body)
    else do
      let granules ← (List.range ng).mapM (fun g => encIntGranule vals g plan.encoding plan.width min)
      some (body ++ granules.flatten)
  | _ => none

def intHeader (vals : List I64) (ng : Nat) (min max : I64) (gmm : List (I64 × I64))
    (plan : IntPlan) : ChunkHeader where
  encoding := plan.encoding
  width := UInt8.ofNat plan.width
  flags := intFlags vals min max gmm
  ngranules := ng
  aux := min
  payloadLen := plan.payloadLen
  codec := plan.codec

def granuleDir (gmm : List (I64 × I64)) (off : Nat → Nat) : List UInt8 :=
  (gmm.mapIdx (fun g m => (GranuleEntry.mk (off g) m.1 m.2).encode)).flatten

/-- The chunk behind `body`, once its value range is known. -/
def intChunkBody (lib : Compressors) (cc : CodecCtx) (body : List UInt8) (vals : List I64) (ng : Nat)
    (min max : I64) : Option (List UInt8) := do
  let gmm := (List.range ng).map (granuleMinmax vals id)
  let plain ← plainPlan lib cc vals ng min max
  let plan ← choosePlan lib cc vals ng plain
  let hdr := intHeader vals ng min max gmm plan
  let body := body ++ hdr.encode ++ granuleDir gmm plan.granuleOff
  let body := body ++ (if hdr.flags &&& chunkFlagBlockZm ≠ 0 then blockZmBytes vals ng else [])
  let body := body ++ (if hdr.flags &&& chunkFlagBloom ≠ 0 then bloomSection vals ng else [])
  intPayload (padTo 64 body) vals ng min plan

/-- `encode_int_chunk`: the body with the chunk behind it, and the chunk's zone map. -/
def encodeIntChunk (lib : Compressors) (cc : CodecCtx) (body : List UInt8) (vals : List I64)
    (ng : Nat) : Option (List UInt8 × (I64 × I64)) :=
  match vals with
  | [] => none
  | v :: rest => do
    let min := rest.foldl i64MinOf v
    let max := rest.foldl i64MaxOf v
    let body ← intChunkBody lib cc body vals ng min max
    some (body, (min, max))

end ColumnarIntChunk
