import Pgrust.ColumnarIntChunk

/-!
# Reading a chunk

The view of one column chunk inside a part, its zone-map words, and the decoding
of its granules. A pointer datum is the memory from its address on; arena memory
is what the last decompression left there.
-/
namespace ColumnarChunkView

open ByteImage ColumnarFormat ColumnarCodec ColumnarSketch
open ColumnarIntChunk (checkedAdd)

inductive Datum where
  | word (v : I64)
  | ptr (mem : List UInt8)
  deriving DecidableEq, Repr

structure ChunkView where
  part : List UInt8
  hdr : ChunkHeader
  gdirOff : Nat
  blockzmOff : Nat
  bloomOff : Nat
  payloadOff : Nat
  nrows : Nat

def ChunkView.at (part : List UInt8) (base nrows : Nat) : Option ChunkView := do
  let hdr ← ChunkHeader.decode (← slice part base cbChunkHeaderLen)
  let gdirOff := base + cbChunkHeaderLen
  let blockzmOff := gdirOff + hdr.ngranules * cbGranuleEntryLen
  let blockzmLen :=
    if hdr.flags &&& chunkFlagBlockZm ≠ 0 then hdr.ngranules * blocksPerGranule * cbBlockZmEntryLen
    else 0
  let bloomOff := blockzmOff + blockzmLen
  let bloomLen := if hdr.flags &&& chunkFlagBloom ≠ 0 then hdr.ngranules * bloomBytes else 0
  some { part, hdr, gdirOff, blockzmOff, bloomOff, payloadOff := align64 (bloomOff + bloomLen), nrows }

def ChunkView.granule (v : ChunkView) (g : Nat) : Option GranuleEntry := do
  let off := v.gdirOff + g * cbGranuleEntryLen
  some ⟨← getU64 v.part off, ← getI64 v.part (off + 8), ← getI64 v.part (off + 16)⟩

def ChunkView.payload (v : ChunkView) : Option (List UInt8) := slice v.part v.payloadOff v.hdr.payloadLen

def ChunkView.granuleRows (v : ChunkView) (g : Nat) : Option Nat :=
  if v.nrows < g * ColumnarFormat.granuleRows then none
  else some (min (v.nrows - g * ColumnarFormat.granuleRows) ColumnarFormat.granuleRows)

/-- The decode scratch a scan keeps for a column: the dictionary of the row group
and the arena. -/
structure DecodeState where
  dict : List Datum
  arena : Lz4dec.Mem

section Decode

variable (lib : Compressors)

/-- A compressed frame at offset `fo` of the payload, decompressed into the arena. -/
def readFrame (codec : Codec) (p : List UInt8) (fo rawLen compLen : Nat) (arena : Lz4dec.Mem) :
    Option Lz4dec.Mem := do
  let src ← slice p (fo + 8) compLen
  decompressFrameInto lib codec src arena (rawLen + Lz4dec.outPad) rawLen

def ChunkView.fixedGranuleBytes (v : ChunkView) (g n : Nat) (arena : Lz4dec.Mem) :
    Option (List UInt8 × Lz4dec.Mem) := do
  let w := v.hdr.width.toNat
  let p ← v.payload
  if v.hdr.codec = .none then
    some (← slice p (g * ColumnarFormat.granuleRows * w) (n * w), arena)
  else do
    let fo := (← v.granule g).payloadOff
    let rawLen ← getU32 p fo
    let compLen ← getU32 p (fo + 4)
    if rawLen ≠ n * w then none
    else do
      let arena ← readFrame lib v.hdr.frameCodec p fo rawLen compLen arena
      some (memBytes arena rawLen, arena)

def ChunkView.decodeFor (v : ChunkView) (g n : Nat) (arena : Lz4dec.Mem) : Option (List Datum × Lz4dec.Mem) := do
  let (src, arena) ← v.fixedGranuleBytes lib g n arena
  let w := v.hdr.width.toNat
  if w = 1 ∨ w = 2 ∨ w = 4 then do
    let lanes ← lanes w n src
    let vals ← lanes.mapM (fun c => checkedAdd v.hdr.aux (i64OfLe c))
    some (vals.map Datum.word, arena)
  else none

def ChunkView.decodeRaw (v : ChunkView) (g n : Nat) (arena : Lz4dec.Mem) : Option (List Datum × Lz4dec.Mem) := do
  let (src, arena) ← v.fixedGranuleBytes lib g n arena
  let lanes ← lanes 8 n src
  some (lanes.map (fun c => Datum.word (i64OfLe c)), arena)

/-- The prefix sum of a delta granule, in wrapping arithmetic. -/
def prefixSum (dmin : I64) : I64 → List (List UInt8) → List I64
  | acc, [] => [acc]
  | acc, c :: rest => acc :: prefixSum dmin (acc + (dmin + i64OfLe c)) rest

/-- The delta image of granule `g`: in place where the two lengths agree. -/
def ChunkView.deltaImage (v : ChunkView) (g : Nat) (arena : Lz4dec.Mem) : Option (List UInt8 × Lz4dec.Mem) := do
  let p ← v.payload
  let fo := (← v.granule g).payloadOff
  let rawLen ← getU32 p fo
  let compLen ← getU32 p (fo + 4)
  if compLen = rawLen then some (← slice p (fo + 8) rawLen, arena)
  else do
    let arena ← readFrame lib v.hdr.frameCodec p fo rawLen compLen arena
    some (memBytes arena rawLen, arena)

/-- The rows of a delta image. -/
def deltaRows (img : List UInt8) (n : Nat) : Option (List I64) := do
  let first ← getI64 img 0
  let dmin ← getI64 img 8
  let w ← img[16]?
  let width := if w = 0 ∨ w = 1 ∨ w = 2 ∨ w = 4 then w.toNat else 8
  if n = 0 ∨ img.length < 24 then none
  else do
    let lanes ← lanes width (n - 1) (img.drop 24)
    some (prefixSum dmin first lanes)

def ChunkView.decodeDelta (v : ChunkView) (g n : Nat) (arena : Lz4dec.Mem) : Option (List Datum × Lz4dec.Mem) := do
  let (img, arena) ← v.deltaImage lib g arena
  let vals ← deltaRows img n
  some (vals.map Datum.word, arena)

/-- The frame directory of a sub-framed dictionary blob: raw and stored length of
each frame, and where the frame bytes start. The cumulative offsets are `u32` sums. -/
def parseFramedDict (blob : List UInt8) : Option (List (Nat × Nat) × Nat) := do
  let nframes ← getU32 blob 0
  let frames ← (List.range nframes).mapM (fun f => do
    some (← getU32 blob (4 + f * 8), ← getU32 blob (8 + f * 8)))
  if (frames.map Prod.fst).sum < 2 ^ 32 ∧ (frames.map Prod.snd).sum < 2 ^ 32 then
    some (frames, 4 + nframes * 8)
  else none

/-- One frame into its place at raw offset `r`; equal lengths mark a frame stored raw. -/
def fillFrame (codec : Codec) (src : List UInt8) (bufLen r raw : Nat) (mem : Lz4dec.Mem) : Option Lz4dec.Mem :=
  if src.length = raw then
    if r + raw ≤ bufLen then some (fun k => if k < raw then src.getD k 0 else mem (r + k)) else none
  else decompressFrameInto lib codec src (fun k => mem (r + k)) (bufLen - r) raw

/-- Ascending in-place decompression of the frames from raw offset `r` and stored
offset `c` on. -/
def fillFrames (codec : Codec) (data : List UInt8) (bufLen : Nat) :
    List (Nat × Nat) → Nat → Nat → Lz4dec.Mem → Option Lz4dec.Mem
  | [], _, _, mem => some mem
  | (raw, comp) :: frames, r, c, mem => do
    let src ← slice data c comp
    let out ← fillFrame lib codec src bufLen r raw mem
    fillFrames codec data bufLen frames (r + raw) (c + comp) (fun k => if k < r then mem k else out (k - r))

/-- The dictionary blob as the published pointers see it, from its base on. -/
def ChunkView.dictMemory (v : ChunkView) (blobOff : Nat) (blob : List UInt8) (arena : Lz4dec.Mem) :
    Option (List UInt8 × Lz4dec.Mem) :=
  if v.hdr.encoding = .lz4Dict then
    if v.hdr.flags &&& chunkFlagDictFramed ≠ 0 then do
      let (frames, data) ← parseFramedDict blob
      let total := (frames.map Prod.fst).sum
      let arena ← fillFrames lib v.hdr.frameCodec (blob.drop data) (total + Lz4dec.outPad) frames 0 0 arena
      some (memBytes arena total, arena)
    else do
      let rawLen ← getU32 blob 0
      let compLen ← getU32 blob 4
      let arena ← readFrame lib v.hdr.frameCodec blob 0 rawLen compLen arena
      some (memBytes arena rawLen, arena)
  else some (v.part.drop blobOff, arena)

/-- `build_dict`: the pointer table of the row group, built once. -/
def ChunkView.buildDict (v : ChunkView) (st : DecodeState) : Option DecodeState :=
  if !st.dict.isEmpty then some st
  else do
    let ndv := v.hdr.aux.toNat
    let p ← v.payload
    let codesLen := align4 (v.nrows * v.hdr.width.toNat)
    let offTab ← slice p codesLen (ndv * 4)
    if p.length < codesLen + ndv * 4 then none
    else do
      let (mem, arena) ← v.dictMemory lib (v.payloadOff + (codesLen + ndv * 4))
        (p.drop (codesLen + ndv * 4)) st.arena
      let offs ← lanes 4 ndv offTab
      some ⟨offs.map (fun c => Datum.ptr (mem.drop (leNat c))), arena⟩

def codeWidth (w : UInt8) : Nat := if w = 1 then 1 else if w = 2 then 2 else 4

/-- The codes of granule `g`. -/
def ChunkView.granuleCodes (v : ChunkView) (g n : Nat) : Option (List Nat) := do
  let p ← v.payload
  let w := codeWidth v.hdr.width
  let lanes ← lanes w n (← slice p (g * ColumnarFormat.granuleRows * w) (n * w))
  some (lanes.map leNat)

def ChunkView.isDict (v : ChunkView) : Bool := v.hdr.encoding = .dict ∨ v.hdr.encoding = .lz4Dict

def ChunkView.decodeDict (v : ChunkView) (g n : Nat) (st : DecodeState) : Option (List Datum × DecodeState) := do
  let st ← v.buildDict lib st
  let codes ← v.granuleCodes g n
  let vals ← codes.mapM (fun c => st.dict[c]?)
  some (vals, st)

/-- Row pointers of granule `g`: the plain offsets of the rows into `mem`. -/
def ChunkView.rowPtrs (p : List UInt8) (g n : Nat) (mem : List UInt8) : Option (List Datum) := do
  let lanes ← lanes 4 n (← slice p (g * ColumnarFormat.granuleRows * 4) (n * 4))
  some (lanes.map (fun c => Datum.ptr (mem.drop (leNat c))))

def ChunkView.decodeRawText (v : ChunkView) (g n : Nat) (st : DecodeState) : Option (List Datum × DecodeState) := do
  let p ← v.payload
  if v.part.length < v.payloadOff + v.nrows * 4 then none
  else do
    let vals ← rowPtrs p g n (v.part.drop (v.payloadOff + v.nrows * 4))
    some (vals, st)

def ChunkView.decodeLz4Text (v : ChunkView) (g n : Nat) (st : DecodeState) : Option (List Datum × DecodeState) := do
  let p ← v.payload
  let fo := (← v.granule g).payloadOff
  let rawLen ← getU32 p fo
  let compLen ← getU32 p (fo + 4)
  let arena ← readFrame lib v.hdr.frameCodec p fo rawLen compLen st.arena
  let vals ← rowPtrs p g n (memBytes arena rawLen)
  some (vals, ⟨st.dict, arena⟩)

def ChunkView.decodeGranule (v : ChunkView) (g : Nat) (st : DecodeState) : Option (List Datum × DecodeState) := do
  let n ← v.granuleRows g
  match v.hdr.encoding with
  | .const => some (List.replicate n (Datum.word v.hdr.aux), st)
  | .for => do
    let (vals, arena) ← v.decodeFor lib g n st.arena
    some (vals, ⟨st.dict, arena⟩)
  | .raw => do
    let (vals, arena) ← v.decodeRaw lib g n st.arena
    some (vals, ⟨st.dict, arena⟩)
  | .deltaFor => do
    let (vals, arena) ← v.decodeDelta lib g n st.arena
    some (vals, ⟨st.dict, arena⟩)
  | .dict | .lz4Dict => v.decodeDict lib g n st
  | .rawText => v.decodeRawText g n st
  | .lz4Text => v.decodeLz4Text lib g n st

/-- Granules `g, g + 1, …` decoded one after the other with one scratch state. -/
def ChunkView.decodeFrom (v : ChunkView) : Nat → Nat → DecodeState → Option (List Datum)
  | 0, _, _ => some []
  | k + 1, g, st => do
    let (vals, st) ← v.decodeGranule lib g st
    let rest ← v.decodeFrom k (g + 1) st
    some (vals ++ rest)

/-- Every granule of a chunk, in order. -/
def ChunkView.decodeAll (v : ChunkView) (st : DecodeState) : Option (List Datum) :=
  v.decodeFrom lib v.hdr.ngranules 0 st

end Decode

end ColumnarChunkView
