import Pgrust.ColumnarFormat
import Pgrust.Lz4decRefines

/-!
# The codec menu and compressed frames

`lz4_flex` and `zstd` are libraries outside the repository, so the compressors
and the zstd decompressor are parameters. LZ4 frames are read by the padded
decoder of the repository itself.
-/
namespace ColumnarCodec

open ByteImage ColumnarFormat List

/-- The compression libraries. -/
structure Compressors where
  lz4 : List UInt8 → List UInt8
  zstd : Int → List UInt8 → List UInt8
  zstdDecode : List UInt8 → Option (List UInt8)

/-- Each compressor and its decompressor are inverse: LZ4 produces blocks of its
documented format, zstd what its own decoder reads back. -/
structure Compressors.Inverse (lib : Compressors) : Prop where
  lz4 : ∀ data, Lz4Block.decode (lib.lz4 data) = some data
  zstd : ∀ level data, lib.zstdDecode (lib.zstd level data) = some data

/-- Compressors that store: LZ4 as one literal run, zstd as the bytes themselves. -/
def storing : Compressors := ⟨Lz4Block.literalBlock, fun _ data => data, some⟩

theorem storing_inverse : storing.Inverse := ⟨Lz4Block.decode_literalBlock, fun _ _ => rfl⟩

inductive CodecChoice where
  | plain
  | lz4
  | zstd
  | auto
  deriving DecidableEq, Repr

/-- Per-chunk compression settings. -/
structure CodecCtx where
  choice : CodecChoice
  zstdLevel : Int
  delta : Bool
  dictFrames : Bool
  dictFrameTarget : Nat

section

variable (lib : Compressors) (cc : CodecCtx)

def CodecCtx.compress : Codec → List UInt8 → Option (List UInt8)
  | .lz4, data => some (lib.lz4 data)
  | .zstd, data => some (lib.zstd cc.zstdLevel data)
  | .none, _ => none

/-- Compressed bytes win when they save a tenth of the raw ones. -/
def wins (sample : List UInt8) (comp : Nat) : Bool := comp * 10 ≤ sample.length * 9

def CodecCtx.pick (sample : List UInt8) (narrowHot : Bool) : Option Codec :=
  if sample.isEmpty then none
  else
    let lz4 := (lib.lz4 sample).length
    let zst := (lib.zstd cc.zstdLevel sample).length
    match cc.choice with
    | .plain => none
    | .lz4 => if wins sample lz4 then some .lz4 else none
    | .zstd => if wins sample zst then some .zstd else none
    | .auto =>
      if !wins sample lz4 && !wins sample zst then none
      else if zst * 10 ≤ lz4 * (if narrowHot then 7 else 8) then some .zstd
      else if wins sample lz4 then some .lz4
      else some .zstd

/-- A picked codec is one that compresses. -/
theorem CodecCtx.pick_ne_none (h : cc.pick lib sample narrowHot = some c) : c ≠ .none := by
  intro hc
  subst hc
  cases hchoice : cc.choice <;> simp only [CodecCtx.pick, hchoice] at h
  all_goals split_ifs at h <;> cases h

end

/-- A frame: raw length, stored length, the stored bytes, padded to four. -/
def pushFrame (body : List UInt8) (rawLen : Nat) (comp : List UInt8) : List UInt8 :=
  padTo 4 (body ++ putU32 rawLen ++ putU32 comp.length ++ comp)

def frameLen (compLen : Nat) : Nat := align4 (8 + compLen)

/-- The bytes one frame adds behind a body whose length is a multiple of four. -/
def frameImage (rawLen : Nat) (comp : List UInt8) : List UInt8 := pushFrame [] rawLen comp

@[simp] theorem frameImage_length (rawLen : Nat) (comp : List UInt8) :
    (frameImage rawLen comp).length = frameLen comp.length := by
  rw [frameImage, pushFrame, padTo_length (by decide), frameLen, align4]
  simp only [nil_append, length_append, putU32_length]

theorem pushFrame_eq (hbody : 4 ∣ body.length) (rawLen : Nat) (comp : List UInt8) :
    pushFrame body rawLen comp = body ++ frameImage rawLen comp := by
  obtain ⟨q, hq⟩ := hbody
  simp only [frameImage, pushFrame, padTo, nil_append, length_append, putU32_length, hq, append_assoc]
  have hmod : (4 * q + (4 + (4 + comp.length))) % 4 = (4 + (4 + comp.length)) % 4 := by omega
  rw [hmod]

theorem frameLen_dvd (compLen : Nat) : 4 ∣ frameLen compLen := alignTo_dvd 4 _

theorem foldl_pushFrame (hbody : 4 ∣ body.length) (frames : List (List UInt8 × Nat)) :
    frames.foldl (fun body f => pushFrame body f.2 f.1) body =
      body ++ (frames.map (fun f => frameImage f.2 f.1)).flatten := by
  induction frames generalizing body with
  | nil => simp
  | cons f frames ih =>
    have hnext : 4 ∣ (body ++ frameImage f.2 f.1).length := by
      rw [length_append, frameImage_length]
      exact Nat.dvd_add hbody (frameLen_dvd _)
    simp only [foldl_cons, map_cons, flatten_cons]
    rw [pushFrame_eq hbody, ih hnext, append_assoc]

/-- The words and the stored bytes of a frame inside its image. -/
theorem sits_frameImage (rawLen : Nat) (comp : List UInt8) :
    Sits (frameImage rawLen comp) 0 (putU32 rawLen) ∧ Sits (frameImage rawLen comp) 4 (putU32 comp.length) ∧
      Sits (frameImage rawLen comp) 8 comp := by
  have hall := (sits_self (putU32 rawLen ++ (putU32 comp.length ++ comp))).append_right
    (List.replicate ((4 - ([] ++ putU32 rawLen ++ putU32 comp.length ++ comp).length % 4) % 4) 0)
  have h₁ := hall.right
  have h₂ := h₁.right
  exact ⟨hall.left, h₁.left, h₂⟩

/-- `decompress_frame_into`: the buffer is the part of the arena from the frame's
place on, with the decoder's slack behind `rawLen`. A slice longer than the address
space does not exist. -/
def decompressFrameInto (lib : Compressors) (codec : Codec) (src : List UInt8) (dst : Lz4dec.Mem)
    (dstLen rawLen : Nat) : Option Lz4dec.Mem :=
  match codec with
  | .lz4 =>
    if h : src.length < 2 ^ 63 ∧ dstLen < 2 ^ 63 then
      match Lz4dec.decompressPadded ⟨src, h.1⟩ ⟨dst, dstLen, h.2⟩ rawLen with
      | .ok out => some out
      | .error _ => none
    else none
  | .zstd =>
    match lib.zstdDecode src with
    | none => none
    | some data =>
      if data.length = rawLen ∧ rawLen ≤ dstLen then
        some (fun k => if k < rawLen then data.getD k 0 else dst k)
      else none
  | .none => none

/-- The first `n` bytes of memory. -/
def memBytes (mem : Lz4dec.Mem) (n : Nat) : List UInt8 := (List.range n).map mem

@[simp] theorem memBytes_length (mem : Lz4dec.Mem) (n : Nat) : (memBytes mem n).length = n := by
  simp [memBytes]

theorem memBytes_eq (h : ∀ i, i < data.length → data.getD i 0 = mem i) : memBytes mem data.length = data := by
  refine ext_getElem (by simp) (fun i h₁ h₂ => ?_)
  simp only [memBytes, getElem_map, getElem_range]
  rw [← h i h₂, getD_eq_getElem _ _ h₂]

section Frames

variable {lib : Compressors} {cc : CodecCtx}

/-- A frame that was compressed under its own raw length is read back whole. -/
theorem decompressFrameInto_compress (hinv : lib.Inverse) {codec : Codec} {data comp : List UInt8}
    {dst : Lz4dec.Mem} {dstLen : Nat} (hcomp : cc.compress lib codec data = some comp)
    (hsrc : comp.length < 2 ^ 63) (hfits : dstLen < 2 ^ 63)
    (hdst : data.length + Lz4dec.outPad ≤ dstLen) :
    ∃ mem, decompressFrameInto lib codec comp dst dstLen data.length = some mem ∧
      ∀ i, i < data.length → data.getD i 0 = mem i := by
  cases codec with
  | none => simp [CodecCtx.compress] at hcomp
  | lz4 =>
    simp only [CodecCtx.compress, Option.some.injEq] at hcomp
    subst hcomp
    have hfit : (lib.lz4 data).length < 2 ^ 63 ∧ dstLen < 2 ^ 63 := ⟨hsrc, hfits⟩
    have hdec := Lz4dec.decompressPadded_decodes ⟨lib.lz4 data, hsrc⟩ ⟨dst, dstLen, hfits⟩ data.length hdst
    simp only [decompressFrameInto, hfit, and_self, dite_true]
    generalize Lz4dec.decompressPadded ⟨lib.lz4 data, hfit.1⟩ ⟨dst, dstLen, hfit.2⟩ data.length = r at hdec ⊢
    match r, hdec with
    | .ok out, ⟨ref, href, _, hag, _⟩ =>
      have heq : ref = data := Option.some.inj (href.symm.trans (hinv.lz4 data))
      subst heq
      exact ⟨out, rfl, hag⟩
    | .error (.err _ _), ⟨hno, _⟩ => exact absurd rfl (hno data (hinv.lz4 data))
  | zstd =>
    simp only [CodecCtx.compress, Option.some.injEq] at hcomp
    subst hcomp
    have hroom : data.length ≤ dstLen := by omega
    refine ⟨fun k => if k < data.length then data.getD k 0 else dst k, ?_, fun i hi => ?_⟩
    · simp [decompressFrameInto, hinv.zstd, hroom]
    · simp [hi]

/-- A frame read under any other length than that of its data does not come back. -/
theorem decompressFrameInto_length (hinv : lib.Inverse) (hcomp : cc.compress lib codec data = some comp)
    (hdst : rawLen + Lz4dec.outPad ≤ dstLen) (hne : data.length ≠ rawLen) :
    decompressFrameInto lib codec comp dst dstLen rawLen = none := by
  cases codec with
  | none => simp [CodecCtx.compress] at hcomp
  | lz4 =>
    simp only [CodecCtx.compress, Option.some.injEq] at hcomp
    subst hcomp
    simp only [decompressFrameInto]
    split
    · rename_i hfit
      have hdec := Lz4dec.decompressPadded_decodes ⟨lib.lz4 data, hfit.1⟩ ⟨dst, dstLen, hfit.2⟩ rawLen hdst
      generalize Lz4dec.decompressPadded ⟨lib.lz4 data, hfit.1⟩ ⟨dst, dstLen, hfit.2⟩ rawLen = r at hdec ⊢
      match r, hdec with
      | .ok out, ⟨ref, href, hlen, _, _⟩ =>
        have heq : ref = data := Option.some.inj (href.symm.trans (hinv.lz4 data))
        subst heq
        exact absurd hlen hne
      | .error (.err _ _), _ => rfl
    · rfl
  | zstd =>
    simp only [CodecCtx.compress, Option.some.injEq] at hcomp
    subst hcomp
    simp [decompressFrameInto, hinv.zstd, hne]

end Frames

end ColumnarCodec
