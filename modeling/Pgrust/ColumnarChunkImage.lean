import Pgrust.ColumnarChunkView

/-!
# Chunk images and their views

A chunk image is a header, a granule directory, optional block zone maps and bloom
filters, padding and a payload. A view opened where the image sits reads each of
these back.
-/
namespace ColumnarChunkImage

open ByteImage ColumnarFormat ColumnarCodec ColumnarSketch ColumnarIntChunk ColumnarChunkView

/-- The parts of a chunk, with the lengths its header announces. -/
structure ChunkImage where
  hdr : ChunkHeader
  gdir : List GranuleEntry
  zm : List (I64 × I64)
  bloom : List (List UInt8)
  payload : List UInt8
  fits : hdr.Fits
  gdir_length : gdir.length = hdr.ngranules
  gdir_fits : ∀ e ∈ gdir, e.payloadOff < 2 ^ 64
  zm_length : zm.length = if hdr.flags &&& chunkFlagBlockZm ≠ 0 then hdr.ngranules * blocksPerGranule else 0
  bloom_length : bloom.length = if hdr.flags &&& chunkFlagBloom ≠ 0 then hdr.ngranules else 0
  bloom_bytes : ∀ b ∈ bloom, b.length = bloomBytes
  payload_length : payload.length = hdr.payloadLen

namespace ChunkImage

def gdirBytes (img : ChunkImage) : List UInt8 := (img.gdir.map GranuleEntry.encode).flatten
def zmBytes (img : ChunkImage) : List UInt8 := (img.zm.map minmaxBytes).flatten
def bloomSection (img : ChunkImage) : List UInt8 := img.bloom.flatten

/-- Everything before the padding. -/
def head (img : ChunkImage) : List UInt8 := img.hdr.encode ++ (img.gdirBytes ++ (img.zmBytes ++ img.bloomSection))

def bytes (img : ChunkImage) : List UInt8 := padTo 64 img.head ++ img.payload

/-- The view `ChunkView::at` opens on the image. -/
def view (img : ChunkImage) (part : List UInt8) (base nrows : Nat) : ChunkView where
  part := part
  hdr := img.hdr
  gdirOff := base + cbChunkHeaderLen
  blockzmOff := base + cbChunkHeaderLen + img.gdirBytes.length
  bloomOff := base + cbChunkHeaderLen + img.gdirBytes.length + img.zmBytes.length
  payloadOff := base + align64 img.head.length
  nrows := nrows

theorem gdirBytes_length (img : ChunkImage) : img.gdirBytes.length = img.hdr.ngranules * cbGranuleEntryLen := by
  rw [gdirBytes, flatten_map_length GranuleEntry.encode_length, img.gdir_length]

theorem minmaxBytes_length (m : I64 × I64) : (minmaxBytes m).length = cbBlockZmEntryLen := by
  simp [minmaxBytes, cbBlockZmEntryLen]

theorem zmBytes_length (img : ChunkImage) : img.zmBytes.length = if img.hdr.flags &&& chunkFlagBlockZm ≠ 0 then
        img.hdr.ngranules * blocksPerGranule * cbBlockZmEntryLen else 0 := by
  rw [zmBytes, flatten_map_length minmaxBytes_length, img.zm_length]
  split
  · rfl
  · exact Nat.zero_mul _

theorem bloomSection_length (img : ChunkImage) : img.bloomSection.length =
      if img.hdr.flags &&& chunkFlagBloom ≠ 0 then img.hdr.ngranules * bloomBytes else 0 := by
  rw [bloomSection, flatten_length_of_width img.bloom_bytes, img.bloom_length]
  split
  · rfl
  · exact Nat.zero_mul _

section View

variable {img : ChunkImage} {part : List UInt8} {base : Nat}

section

variable (h : Sits part base img.bytes)
include h

theorem head_sits : Sits part base img.head := by
  have hpad := h.left
  exact hpad.left

theorem at_eq_view (hbase : 64 ∣ base) (nrows : Nat) :
    ChunkView.at part base nrows = some (img.view part base nrows) := by
  have hhdr : Sits part base img.hdr.encode := (head_sits h).left
  have hlen : img.head.length = cbChunkHeaderLen + (img.gdirBytes.length +
      (img.zmBytes.length + img.bloomSection.length)) := by
    simp [head]
  simp only [ChunkView.at, hhdr.slice_of_length img.hdr.encode_length, some_bind, ChunkHeader.decode_encode _ img.fits, ← gdirBytes_length, ← zmBytes_length,
    ← bloomSection_length, view, align64, hlen]
  rw [← alignTo_add (by decide) hbase]
  simp [Nat.add_assoc]

theorem view_payload (nrows : Nat) : (img.view part base nrows).payload = some img.payload := by
  have hpay := h.right
  rw [padTo_length (by decide)] at hpay
  exact hpay.slice_of_length img.payload_length

theorem payload_sits (nrows : Nat) : Sits part (img.view part base nrows).payloadOff img.payload := by
  have hpay := h.right
  rwa [padTo_length (by decide)] at hpay

theorem view_granule (nrows g : Nat) (he : img.gdir[g]? = some e) :
    (img.view part base nrows).granule g = some e := by
  have hdir := (head_sits h).right.left
  have hsits := hdir.trans (sits_map GranuleEntry.encode_length he)
  rw [ChunkHeader.encode_length, GranuleEntry.encode, List.append_assoc] at hsits
  have h₁ := hsits.right
  have h₂ := h₁.right
  simp only [putU64_length, putI64_length] at h₁ h₂
  have hfit := img.gdir_fits e (List.mem_of_getElem? he)
  simp [ChunkView.granule, view, getU64_of_sits hsits.left hfit, getI64_of_sits h₁.left, getI64_of_sits h₂]

end

end View

/-- Behind a body of aligned length the image does not depend on the body. -/
theorem padTo_append (hbody : 64 ∣ body.length) : padTo 64 (body ++ x) = body ++ padTo 64 x := by
  obtain ⟨q, hq⟩ := hbody
  have hmod : (64 * q + x.length) % 64 = x.length % 64 := by omega
  simp [padTo, hq]

end ChunkImage

end ColumnarChunkImage
