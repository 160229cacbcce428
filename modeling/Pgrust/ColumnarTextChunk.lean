import Pgrust.ColumnarAppend

/-!
# The text chunk encoder

`encode_text_chunk`: a first-appearance dictionary of the rows, byte-sorted and
remapped when it pays, plain, in one compressed frame or cut into frames at entry
boundaries; otherwise per-granule compressed images or the images in place. Blob
offsets are `u32` sums that stop on overflow; lengths are narrowed without a check.
-/
namespace ColumnarTextChunk

open ByteImage ColumnarFormat ColumnarCodec ColumnarIntChunk ColumnarAppend

/-- The bytes of one row: the end of the range is a checked `u32` sum. -/
def textSlice (tb : TextBuilder) (o : Nat × Nat) : Option (List UInt8) :=
  if o.1 + o.2 < 2 ^ 32 then slice tb.blob o.1 o.2 else none

/-- Distinct strings in the order of first appearance, and the code of every row. -/
structure DictPass where
  order : List (List UInt8)
  codes : List Nat

local instance bytesLawful : LawfulBEq (List UInt8) := inferInstance

def DictPass.add (d : DictPass) (s : List UInt8) : DictPass :=
  if s ∈ d.order then ⟨d.order, d.codes ++ [d.order.idxOf s]⟩
  else ⟨d.order ++ [s], d.codes ++ [d.order.length]⟩

def dictPass (strings : List (List UInt8)) : DictPass := strings.foldl .add ⟨[], []⟩

/-- The bytes the images of strings take. -/
def imagesLen (strings : List (List UInt8)) : Nat := (strings.map (fun s => align4 (varlenaImgHdr + s.length))).sum

def codeW (ndv : Nat) : Nat := if ndv ≤ 2 ^ 8 then 1 else if ndv ≤ 2 ^ 16 then 2 else 4

/-- The dictionary is taken when it is small enough and beats the plain images. -/
def useDict (strings : List (List UInt8)) : Bool :=
  let order := (dictPass strings).order
  order.length ≤ 65536 && strings.length * codeW order.length + order.length * 4 + imagesLen order <
      strings.length * 4 + imagesLen strings

/-- The byte-order permutation of the dictionary. -/
def dictPerm (order : List (List UInt8)) : List Nat :=
  (List.range order.length).mergeSort (fun a b => decide (order.getD a [] ≤ order.getD b []))

/-- `remap[old] = new` for every place `new` of the permutation. -/
def dictRemap (perm : List Nat) : List Nat :=
  perm.zipIdx.foldl (fun remap p => remap.set p.1 p.2) (List.replicate perm.length 0)

/-- The byte-sorted dictionary. -/
def sortedDict (order : List (List UInt8)) : List (List UInt8) := (dictPerm order).map (fun o => order.getD o [])

/-- The codes of the rows in the byte-sorted dictionary. -/
def sortedCodes (d : DictPass) : List Nat := d.codes.map (fun c => (dictRemap (dictPerm d.order)).getD c 0)

/-- Offsets of consecutive images; each sum is a checked `u32` one. -/
def offTable : Nat → List (List UInt8) → Option (List Nat)
  | _, [] => some []
  | off, s :: strings =>
    let next := off + align4 (varlenaImgHdr + s.length) % 2 ^ 32
    if next < 2 ^ 32 then (offTable next strings).map (off :: ·) else none

/-- Entry-boundary cuts of the dictionary blob, one every `target` raw bytes. -/
def frameCuts (target blobLen : Nat) : List (List UInt8) → Nat → Nat → List (Nat × Nat)
  | [], lo, _ => if lo < blobLen then [(lo, blobLen)] else []
  | s :: strings, lo, acc =>
    let acc := acc + align4 (varlenaImgHdr + s.length)
    if target ≤ acc - lo then (lo, acc) :: frameCuts target blobLen strings acc acc
    else frameCuts target blobLen strings lo acc

/-- What a text chunk is made of once its encoding is chosen. -/
structure TextPlan where
  encoding : Encoding
  width : Nat
  flags : Nat
  aux : Nat
  codec : Codec
  payloadLen : Nat
  granuleOff : Nat → Nat
  payload : List UInt8

section Encoder

variable (lib : Compressors) (cc : CodecCtx)

/-- One stored dictionary frame; equal lengths mark a frame stored raw. -/
def dictFrame (codec : Codec) (blob : List UInt8) (cut : Nat × Nat) : Option (Nat × List UInt8) := do
  let raw ← slice blob cut.1 (cut.2 - cut.1)
  let comp ← cc.compress lib codec raw
  some ((cut.2 - cut.1) % 2 ^ 32, if comp.length < raw.length then comp else raw)

/-- The sub-frame plan: only for a blob over one target, and only when it cuts. -/
def dictFrames (order : List (List UInt8)) (blob : List UInt8) (picked : Option Codec) :
    Option (Option (List (Nat × List UInt8))) :=
  match picked with
  | none => some none
  | some codec =>
    if cc.dictFrames ∧ cc.dictFrameTarget < imagesLen order then do
      let frames ← (frameCuts cc.dictFrameTarget (imagesLen order) order 0 0).mapM (dictFrame lib cc codec blob)
      some (if 1 < frames.length then some frames else none)
    else some none

/-- The framed region before its padding. -/
def framedRegion (frames : List (Nat × List UInt8)) : List UInt8 :=
  putU32 frames.length ++ (frames.map (fun f => putU32 f.1 ++ putU32 f.2.length)).flatten ++
    (frames.map Prod.snd).flatten

def framedLen (frames : List (Nat × List UInt8)) : Nat :=
  align4 (4 + 8 * frames.length + (frames.map (fun f => f.2.length)).sum)

/-- The compressed form of the dictionary blob with its stored length. -/
def compressedDict (blob : List UInt8) (codec : Codec) :
    Option (List (Nat × List UInt8)) → Option (List UInt8 × Nat)
  | some frames => some (framedRegion frames, framedLen frames)
  | none => do
    let comp ← cc.compress lib codec blob
    some (putU32 blob.length ++ putU32 comp.length ++ comp, frameLen comp.length)

/-- What is stored for the dictionary blob. -/
structure StoredDict where
  encoding : Encoding
  codec : Codec
  framed : Bool
  len : Nat
  bytes : List UInt8

/-- The compressed form is taken when the payload saves a tenth. -/
def storedDict (headLen : Nat) (order : List (List UInt8)) (blob : List UInt8) : Option StoredDict := do
  let picked := cc.pick lib blob false
  let frames ← dictFrames lib cc order blob picked
  match picked with
  | none => some ⟨.dict, .none, false, imagesLen order, blob⟩
  | some codec => do
    let (region, len) ← compressedDict lib cc blob codec frames
    if (headLen + len) * 10 ≤ (headLen + imagesLen order) * 9 then
      some ⟨.lz4Dict, codec, frames.isSome, len, region ++ List.replicate (len - region.length) 0⟩
    else some ⟨.dict, .none, false, imagesLen order, blob⟩

/-- The dictionary layout: codes, offsets into the raw blob, the blob. The payload
starts on a multiple of 64, so padding it to four is padding the body. -/
def dictPlan (strings : List (List UInt8)) : Option TextPlan := do
  let d := dictPass strings
  let w := codeW d.order.length
  let order := sortedDict d.order
  let codes := sortedCodes d
  let headLen := align4 (strings.length * w) + order.length * 4
  let stored ← storedDict lib cc headLen order (order.foldl pushVarlenaImage [])
  let offs ← offTable 0 order
  some { encoding := stored.encoding
         codec := stored.codec
         width := w
         flags := chunkFlagDictSorted ||| (if stored.framed then chunkFlagDictFramed else 0)
         aux := order.length
         payloadLen := headLen + stored.len
         granuleOff := fun g => g * granuleRows * w
         payload := padTo 4 (codes.map (leBytes w)).flatten ++ (offs.map putU32).flatten ++ stored.bytes }

/-- The images of one granule. -/
def granuleBlob (strings : List (List UInt8)) (g : Nat) : List UInt8 :=
  (granuleSlice strings g).foldl pushVarlenaImage []

/-- Granule-relative row offsets, narrowed to `u32`. -/
def relOffs : Nat → List (List UInt8) → List Nat
  | _, [] => []
  | off, s :: strings => off % 2 ^ 32 :: relOffs (off + align4 (varlenaImgHdr + s.length)) strings

/-- The codec sampled on granule 0. -/
def textCodec (strings : List (List UInt8)) (ng : Nat) : Option Codec :=
  if ng = 0 then none else cc.pick lib (granuleBlob strings 0) false

/-- The compressed granules with their narrowed raw lengths. -/
def textFrames (strings : List (List UInt8)) (ng : Nat) (c : Codec) : Option (List (List UInt8 × Nat)) :=
  (List.range ng).mapM (fun g => do
    let comp ← cc.compress lib c (granuleBlob strings g)
    some (comp, (granuleBlob strings g).length % 2 ^ 32))

/-- The compressed-text candidate, when it saves a tenth of the payload. -/
def compressedText (strings : List (List UInt8)) (ng : Nat) : Option (Option (Codec × List (List UInt8 × Nat))) :=
  match textCodec lib cc strings ng with
  | none => some none
  | some c => do
    let frames ← textFrames lib cc strings ng c
    some (if (strings.length * 4 + framesLen frames) * 10 ≤ (strings.length * 4 + imagesLen strings) * 9
      then some (c, frames) else none)

def lz4TextPlan (strings : List (List UInt8)) (ng : Nat) (c : Codec)
    (frames : List (List UInt8 × Nat)) : TextPlan where
  encoding := .lz4Text
  width := 4
  flags := 0
  aux := ((List.range ng).map (fun g => (granuleBlob strings g).length)).foldl max 0
  codec := c
  payloadLen := strings.length * 4 + framesLen frames
  granuleOff := fun g => strings.length * 4 + framesLen (frames.take g)
  payload := (((List.range ng).map (fun g => relOffs 0 (granuleSlice strings g))).flatten.map
    putU32).flatten ++ (frames.map (fun f => frameImage f.2 f.1)).flatten

def rawTextPlan (strings : List (List UInt8)) : Option TextPlan := do
  let offs ← offTable 0 strings
  some { encoding := .rawText
         width := 4
         flags := 0
         aux := 0
         codec := .none
         payloadLen := strings.length * 4 + imagesLen strings
         granuleOff := fun g => g * granuleRows * 4
         payload := (offs.map putU32).flatten ++ strings.foldl pushVarlenaImage [] }

def textPlan (strings : List (List UInt8)) (ng : Nat) : Option TextPlan :=
  if useDict strings then dictPlan lib cc strings
  else do
    match ← compressedText lib cc strings ng with
    | some (c, frames) => some (lz4TextPlan strings ng c frames)
    | none => rawTextPlan strings

def TextPlan.header (plan : TextPlan) (ng : Nat) : ChunkHeader where
  encoding := plan.encoding
  width := UInt8.ofNat plan.width
  flags := plan.flags
  ngranules := ng
  aux := BitVec.ofNat 64 plan.aux
  payloadLen := plan.payloadLen
  codec := plan.codec

/-- The granule zone maps of a text column are those of its byte lengths. -/
def lengthMinmax (strings : List (List UInt8)) (g : Nat) : I64 × I64 :=
  granuleMinmax strings (fun s => BitVec.ofNat 64 s.length) g

/-- The dictionary in local code order, where the column's stitch asks for it. -/
def capturedDict (strings : List (List UInt8)) (capture : Bool) : Option (List (List UInt8)) :=
  if useDict strings && capture then some (sortedDict (dictPass strings).order) else none

/-- `encode_text_chunk`. Every later slice of a row repeats one of the dictionary
pass, so the rows are sliced once. -/
def encodeTextChunk (body : List UInt8) (tb : TextBuilder) (ng : Nat) (capture : Bool) :
    Option (List UInt8 × (I64 × I64) × Option (List (List UInt8))) := do
  let strings ← tb.offs.mapM (textSlice tb)
  let gmm := (List.range ng).map (lengthMinmax strings)
  let plan ← textPlan lib cc strings ng
  let body := padTo 64 (body ++ (plan.header ng).encode ++ granuleDir gmm plan.granuleOff)
  some (body ++ plan.payload,
    (gmm.foldl (fun m g => i64MinOf m g.1) i64Max, gmm.foldl (fun m g => i64MaxOf m g.2) i64Min),
    capturedDict strings capture)

end Encoder

end ColumnarTextChunk
