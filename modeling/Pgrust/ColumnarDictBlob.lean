import Pgrust.ColumnarIntPlan
import Pgrust.ColumnarTextLayout

/-!
# The dictionary blob, stored and read back

However the dictionary blob of a text chunk is stored, in place, as one compressed
frame or cut into frames, the reader finds the same bytes in memory.
-/
namespace ColumnarDictBlob

open ByteImage ColumnarFormat ColumnarCodec ColumnarIntChunk ColumnarChunkView ColumnarIntLanes List
open ColumnarIntPlan ColumnarTextChunk ColumnarTextLayout

/-- The frames of a directory, from raw and stored bytes. -/
def framesOfPairs (fs : List (List UInt8 × List UInt8)) : List (Nat × List UInt8) :=
  fs.map (fun f => (f.1.length, f.2))

/-- A stored frame is its raw bytes or a strictly shorter compression of them. -/
def StoredFrame (lib : Compressors) (cc : CodecCtx) (c : Codec) (f : List UInt8 × List UInt8) : Prop :=
  f.2 = f.1 ∨ (cc.compress lib c f.1 = some f.2 ∧ f.2.length < f.1.length)

/-- The three ways the blob of a dictionary is stored. Frames hold whole entries. -/
inductive StoredSpec (lib : Compressors) (cc : CodecCtx) (order : List (List UInt8)) : StoredDict → Prop
  | plain : StoredSpec lib cc order ⟨.dict, .none, false, imagesLen order, images order⟩
  | single {c : Codec} {comp : List UInt8} (pad : List UInt8) (hc : c ≠ .none)
      (hcomp : cc.compress lib c (images order) = some comp) (hlen : comp.length < 2 ^ 32) :
      StoredSpec lib cc order ⟨.lz4Dict, c, false, frameLen comp.length,
        putU32 (images order).length ++ putU32 comp.length ++ comp ++ pad⟩
  | framed {c : Codec} (groups : List (List (List UInt8))) (fs : List (List UInt8 × List UInt8))
      (pad : List UInt8) (hc : c ≠ .none) (hgroups : groups.flatten = order)
      (hne : ∀ group ∈ groups, group ≠ []) (hfs : fs.map Prod.fst = groups.map images)
      (hstored : ∀ f ∈ fs, StoredFrame lib cc c f) :
      StoredSpec lib cc order ⟨.lz4Dict, c, true, framedLen (framesOfPairs fs),
        framedRegion (framesOfPairs fs) ++ pad⟩

variable {fs : List (List UInt8 × List UInt8)} {c : Codec} {f : List UInt8 × List UInt8}

theorem images_groups {groups : List (List (List UInt8))} (hfs : fs.map Prod.fst = groups.map images) :
    (fs.map Prod.fst).flatten = images groups.flatten := by
  rw [hfs, images, map_flatten, flatten_flatten, map_map]
  rfl

section Store

variable {lib : Compressors} {cc : CodecCtx}

theorem dictFrame_eq {c : Codec} (hc : c ≠ .none) {blob raw : List UInt8} {lo hi : Nat}
    (hsits : Sits blob lo raw) (hhi : hi = lo + raw.length) (hlen : raw.length < 2 ^ 32) :
    ∃ stored, dictFrame lib cc c blob (lo, hi) = some (raw.length, stored) ∧
      StoredFrame lib cc c (raw, stored) := by
  obtain ⟨comp, hcomp⟩ := @compress_isSome lib cc c hc raw
  have hsub : hi - lo = raw.length := by omega
  simp only [dictFrame, hsub, hsits.slice, some_bind, hcomp, Nat.mod_eq_of_lt hlen]
  by_cases hwin : comp.length < raw.length
  · exact ⟨comp, by rw [if_pos hwin], .inr ⟨hcomp, hwin⟩⟩
  · exact ⟨raw, by rw [if_neg hwin], .inl rfl⟩

theorem mapM_dictFrame {c : Codec} (hc : c ≠ .none) (pre : List UInt8)
    {groups : List (List (List UInt8))} (hlen : imagesLen groups.flatten < 2 ^ 32) :
    ∃ fs, (cutsOf pre.length groups).mapM (dictFrame lib cc c (pre ++ images groups.flatten)) =
        some (framesOfPairs fs) ∧
      fs.map Prod.fst = groups.map images ∧ ∀ f ∈ fs, StoredFrame lib cc c f := by
  induction groups generalizing pre with
  | nil => exact ⟨[], rfl, rfl, by simp⟩
  | cons group groups ih =>
    rw [flatten_cons, imagesLen_append] at hlen
    have hblob : pre ++ images (group :: groups).flatten = (pre ++ images group) ++ images groups.flatten := by
      rw [flatten_cons, images_append, append_assoc]
    have hpre : (pre ++ images group).length = pre.length + imagesLen group := by
      rw [length_append, images_length]
    rw [hblob, cutsOf, mapM_cons]
    obtain ⟨stored, hframe, hst⟩ := @dictFrame_eq lib cc c hc
      ((pre ++ images group) ++ images groups.flatten) (images group) pre.length
      (pre.length + imagesLen group) (sits_middle pre _ _) (by rw [images_length])
      (by rw [images_length]; omega)
    obtain ⟨fs, hfs, hraws, hall⟩ := ih (pre ++ images group) (by omega)
    rw [hpre] at hfs
    refine ⟨(images group, stored) :: fs, ?_, ?_, ?_⟩
    · rw [hframe, hfs]
      rfl
    · rw [map_cons, map_cons, hraws]
    · intro f hf
      rcases mem_cons.mp hf with rfl | hf
      · exact hst
      · exact hall f hf

theorem directory_width (f : Nat × List UInt8) : (putU32 f.1 ++ putU32 f.2.length).length = 8 := by
  simp

theorem directory_length (frames : List (Nat × List UInt8)) :
    (putU32 frames.length ++ (frames.map (fun f => putU32 f.1 ++ putU32 f.2.length)).flatten).length =
      4 + frames.length * 8 := by
  rw [length_append, putU32_length, flatten_map_length directory_width]

theorem framedRegion_length (frames : List (Nat × List UInt8)) :
    (framedRegion frames).length = 4 + 8 * frames.length + (frames.map (fun f => f.2.length)).sum := by
  rw [framedRegion, length_append, directory_length, length_flatten, map_map, Nat.mul_comm]
  rfl

/-- The directory of frames is planned, or the whole blob is one frame. -/
theorem dictFrames_spec {order : List (List UInt8)} {c : Codec} (hc : c ≠ .none) (hlen : imagesLen order < 2 ^ 32) :
    dictFrames lib cc order (images order) (some c) = some none ∨
      ∃ (groups : List (List (List UInt8))) (fs : List (List UInt8 × List UInt8)),
        dictFrames lib cc order (images order) (some c) = some (some (framesOfPairs fs)) ∧
        groups.flatten = order ∧ (∀ group ∈ groups, group ≠ []) ∧
        fs.map Prod.fst = groups.map images ∧ ∀ f ∈ fs, StoredFrame lib cc c f := by
  obtain ⟨groups, hcuts, hflat, hne⟩ := @frameCuts_groups cc.dictFrameTarget (imagesLen order) 0 0
    order [] rfl (Nat.zero_add _)
  rw [nil_append] at hflat
  obtain ⟨fs, hfs, hraws, hall⟩ := @mapM_dictFrame lib cc c hc [] groups (by rwa [hflat])
  rw [length_nil, nil_append, hflat] at hfs
  simp only [dictFrames, hcuts, hfs]
  split
  · simp only [some_bind]
    split
    · exact .inr ⟨groups, fs, rfl, hflat, hne, hraws, hall⟩
    · exact .inl rfl
  · exact .inl rfl

/-- What `storedDict` stores is one of the three forms, in the length it announces. -/
theorem storedDict_spec (headLen : Nat) {order : List (List UInt8)} (hlen : imagesLen order < 2 ^ 32) :
    ∃ stored, storedDict lib cc headLen order (images order) = some stored ∧
      StoredSpec lib cc order stored ∧ stored.bytes.length = stored.len := by
  cases hpick : cc.pick lib (images order) false with
  | none =>
    refine ⟨_, ?_, .plain, images_length _⟩
    simp [storedDict, hpick, dictFrames]
  | some c =>
    have hc := cc.pick_ne_none lib hpick
    obtain ⟨comp, hcomp⟩ := @compress_isSome lib cc c hc (images order)
    rcases @dictFrames_spec lib cc order c hc hlen with
      hframes | ⟨groups, fs, hframes, hflat, hne, hraws, hall⟩
    · simp only [storedDict, hpick, hframes, some_bind, compressedDict, hcomp]
      split
      · rename_i hwin
        have hpad := @le_alignTo 4 (by decide) (8 + comp.length)
        have hshort : comp.length < 2 ^ 32 := by
          simp only [frameLen, align4] at hwin
          omega
        refine ⟨_, rfl, .single _ hc hcomp hshort, ?_⟩
        simp only [length_append, length_replicate, putU32_length, frameLen, align4]
        omega
      · exact ⟨_, rfl, .plain, images_length _⟩
    · simp only [storedDict, hpick, hframes, some_bind, compressedDict]
      split
      · refine ⟨_, rfl, .framed groups fs _ hc hflat hne hraws hall, ?_⟩
        have hpad := @le_alignTo 4 (by decide) (4 + 8 * (framesOfPairs fs).length +
          ((framesOfPairs fs).map (fun f => f.2.length)).sum)
        simp only [length_append, length_replicate, framedRegion_length, framedLen, align4]
        omega
      · exact ⟨_, rfl, .plain, images_length _⟩

end Store

section Read

variable {lib : Compressors} {cc : CodecCtx}

theorem StoredFrame.length_le (h : StoredFrame lib cc c f) : f.2.length ≤ f.1.length := by
  rcases h with h | ⟨-, h⟩
  · rw [h]
  · exact h.le

/-- A frame whose lengths agree is stored raw. -/
theorem StoredFrame.eq_of_length (h : StoredFrame lib cc c f) (hlen : f.2.length = f.1.length) : f.2 = f.1 := by
  rcases h with h | ⟨-, h⟩
  · exact h
  · omega

theorem sum_stored_le (h : ∀ f ∈ fs, StoredFrame lib cc c f) :
    (fs.map (fun f => f.2.length)).sum ≤ (fs.map (fun f => f.1.length)).sum :=
  sum_le_sum (fun f hf => (h f hf).length_le)

theorem sum_raw (h : (fs.map Prod.fst).flatten = blob) : (fs.map (fun f => f.1.length)).sum = blob.length := by
  rw [← h, length_flatten, map_map]
  rfl

theorem length_le_sum {α : Type} {f : α → Nat} {xs : List α} {x : α} (h : x ∈ xs) :
    f x ≤ (xs.map f).sum := le_sum_of_mem (mem_map_of_mem h)

theorem length_lt_of_groups {order : List (List UInt8)} {groups : List (List (List UInt8))}
    (hgroups : groups.flatten = order) (hne : ∀ group ∈ groups, group ≠ [])
    (hraws : fs.map Prod.fst = groups.map images) (hlen : (images order).length < 2 ^ 32) : fs.length < 2 ^ 32 := by
  have hcount : fs.length = groups.length := by
    have := congrArg List.length hraws
    rwa [length_map, length_map] at this
  have hle : groups.length ≤ groups.flatten.length := by
    rw [length_flatten]
    have := length_le_sum_of_one_le (groups.map List.length) (by
      intro n hn
      obtain ⟨group, hgroup, rfl⟩ := mem_map.mp hn
      exact length_pos_iff.mpr (hne group hgroup))
    rwa [length_map] at this
  have himages := length_le_imagesLen order
  rw [← images_length] at himages
  rw [hgroups] at hle
  omega

/-- The directory of the framed region is read back. -/
theorem parseFramedDict_eq {c : Codec} {fs : List (List UInt8 × List UInt8)} {blob pad : List UInt8}
    (hblob : (fs.map Prod.fst).flatten = blob) (hall : ∀ f ∈ fs, StoredFrame lib cc c f)
    (hcount : fs.length < 2 ^ 32) (hlen : blob.length < 2 ^ 32) :
    parseFramedDict (framedRegion (framesOfPairs fs) ++ pad) =
      some (fs.map (fun f => (f.1.length, f.2.length)), 4 + fs.length * 8) := by
  have hraw := sum_raw hblob
  have hsum := sum_stored_le hall
  have hregion : Sits (framedRegion (framesOfPairs fs) ++ pad) 0 (putU32 (framesOfPairs fs).length ++
        ((framesOfPairs fs).map (fun f => putU32 f.1 ++ putU32 f.2.length)).flatten ++
        ((framesOfPairs fs).map Prod.snd).flatten) :=
    (sits_self (framedRegion (framesOfPairs fs))).append_right pad
  have hn := hregion.left.left
  have htable := hregion.left.right
  rw [putU32_length] at htable
  have hcnt : (framesOfPairs fs).length = fs.length := by rw [framesOfPairs, length_map]
  have hnf := getU32_of_sits hn (by rw [hcnt]; exact hcount)
  rw [hcnt] at hnf
  have hpairs : ∀ i ∈ List.range fs.length, (do some (← getU32 (framedRegion (framesOfPairs fs) ++ pad) (4 + i * 8),
          ← getU32 (framedRegion (framesOfPairs fs) ++ pad) (8 + i * 8)) : Option (Nat × Nat)) =
        some ((fs.map (fun f => (f.1.length, f.2.length))).getD i (0, 0)) := by
    intro i hi
    have hi' := mem_range.mp hi
    have hmem : fs[i] ∈ fs := getElem_mem hi'
    have h₁ := length_le_sum (f := fun f => f.1.length) hmem
    have h₂ := (hall _ hmem).length_le
    have hget : (framesOfPairs fs)[i]? = some (fs[i].1.length, fs[i].2) := by
      simp [framesOfPairs, getElem?_eq_getElem hi']
    have hsits := htable.trans (sits_map directory_width hget)
    dsimp only at hsits
    have hright := hsits.right
    rw [putU32_length, show 4 + i * 8 + 4 = 8 + i * 8 by omega] at hright
    rw [getU32_of_sits hsits.left (by omega), getU32_of_sits hright (by omega),
      getD_eq_getElem _ _ (by rwa [length_map]), getElem_map]
    rfl
  have hframes := mapM_eq_some hpairs
  have hself := map_getD_range (fs.map (fun f => (f.1.length, f.2.length))) (0, 0)
  rw [length_map] at hself
  rw [hself] at hframes
  simp only [parseFramedDict, hnf, Option.bind_eq_bind, Option.bind_some] at hframes ⊢
  rw [hframes]
  simp only [Option.bind_some, map_map, Function.comp_def]
  rw [if_pos (by omega)]

theorem frameCodec_of_codec {h : ChunkHeader} (hcodec : h.codec = c) (hc : c ≠ .none) : h.frameCodec = c := by
  unfold ChunkHeader.frameCodec
  rw [hcodec]
  cases c with
  | none => exact absurd rfl hc
  | lz4 => rfl
  | zstd => rfl

/-- One frame into its place: its bytes are the raw ones, and nothing before them moves. -/
theorem fillFrame_eq (hinv : lib.Inverse) (hf : StoredFrame lib cc c f)
    (hbuf : r + f.1.length + Lz4dec.outPad ≤ bufLen) (hfit : bufLen < 2 ^ 63) (mem : Lz4dec.Mem) :
    ∃ out, fillFrame lib c f.2 bufLen r f.1.length mem = some out ∧ ∀ i, i < f.1.length → f.1.getD i 0 = out i := by
  by_cases heq : f.2.length = f.1.length
  · have hraw := hf.eq_of_length heq
    refine ⟨fun k => if k < f.1.length then f.2.getD k 0 else mem (r + k), ?_, ?_⟩
    · rw [fillFrame, if_pos heq, if_pos (by omega)]
    · intro i hi
      simp [hi, hraw]
  · have hle := hf.length_le
    rcases hf with hf | ⟨hcomp, -⟩
    · exact absurd (congrArg List.length hf) heq
    · rw [fillFrame, if_neg heq]
      exact decompressFrameInto_compress hinv hcomp (by omega) (by omega) (by omega)

/-- The frames one after the other: the buffer ends up with the raw bytes, and what
is before the first frame stays. -/
theorem fillFrames_eq (hinv : lib.Inverse) (hfit : b < 2 ^ 63) (hall : ∀ f ∈ fs, StoredFrame lib cc c f)
    (r o : Nat) (mem : Lz4dec.Mem) (hdata : Sits data o (fs.map Prod.snd).flatten)
    (hbuf : r + (fs.map Prod.fst).flatten.length + Lz4dec.outPad ≤ b) :
    ∃ mem', fillFrames lib c data b (fs.map (fun f => (f.1.length, f.2.length))) r o mem = some mem' ∧
      (∀ k, k < r → mem' k = mem k) ∧
      ∀ i, i < (fs.map Prod.fst).flatten.length → (fs.map Prod.fst).flatten.getD i 0 = mem' (r + i) := by
  induction fs generalizing r o mem with
  | nil => exact ⟨mem, rfl, fun _ _ => rfl, by simp⟩
  | cons f fs ih =>
    have hrest : ∀ f ∈ fs, StoredFrame lib cc c f := (forall_mem_cons.mp hall).2
    simp only [map_cons, flatten_cons, length_append] at hdata hbuf ⊢
    obtain ⟨out, hout, hbytes⟩ := fillFrame_eq hinv (hall f (by simp)) (r := r) (by omega) hfit mem
    obtain ⟨mem', hmem', hkeep, hread⟩ := ih hrest (r + f.1.length) (o + f.2.length)
      (fun k => if k < r then mem k else out (k - r)) hdata.right (by omega)
    refine ⟨mem', ?_, ?_, ?_⟩
    · simp [fillFrames, hdata.left.slice, hout, hmem']
    · intro k hk
      rw [hkeep k (by omega), if_pos hk]
    · intro i hi
      rcases Nat.lt_or_ge i f.1.length with hlt | hge
      · rw [getD_append _ _ _ _ hlt, hbytes i hlt, hkeep (r + i) (by omega), if_neg (by omega)]
        congr 1
        omega
      · rw [getD_append_right _ _ _ _ hge, hread (i - f.1.length) (by omega)]
        congr 1
        omega

/-- The stored frames are what follows the directory. -/
theorem framedRegion_sits (fs) (pad : List UInt8) :
    Sits ((framedRegion (framesOfPairs fs) ++ pad).drop (4 + fs.length * 8)) 0 (fs.map Prod.snd).flatten := by
  have hsnd : (framesOfPairs fs).map Prod.snd = fs.map Prod.snd := by
    rw [framesOfPairs, map_map]
    rfl
  have hdir := directory_length (framesOfPairs fs)
  have hcnt : (framesOfPairs fs).length = fs.length := by rw [framesOfPairs, length_map]
  rw [← hcnt, framedRegion, hsnd, append_assoc, drop_left' hdir]
  exact (sits_self _).append_right _

/-- However it was stored, the dictionary blob is in memory where the pointers of the
dictionary go. -/
theorem dictMemory_eq (hinv : lib.Inverse) {order : List (List UInt8)} {stored : StoredDict}
    (hspec : StoredSpec lib cc order stored) (hlen : imagesLen order < 2 ^ 32) {v : ChunkView}
    {blobOff : Nat} (henc : v.hdr.encoding = stored.encoding) (hcodec : v.hdr.codec = stored.codec)
    (hflags : v.hdr.flags = chunkFlagDictSorted ||| (if stored.framed then chunkFlagDictFramed else 0))
    (hpart : Sits v.part blobOff stored.bytes) (arena : Lz4dec.Mem) :
    ∃ post arena', v.dictMemory lib blobOff stored.bytes arena = some (images order ++ post, arena') ∧
      (stored.framed = true → post = [] ∧ memBytes arena' (images order).length = images order) := by
  rw [← images_length] at hlen
  cases hspec with
  | plain =>
    obtain ⟨post, hpost⟩ := hpart.drop
    refine ⟨post, arena, ?_, by simp⟩
    simp [ChunkView.dictMemory, henc, hpost]
  | @single c comp pad hc hcomp hshort =>
    have hcd : v.hdr.frameCodec = c := frameCodec_of_codec hcodec hc
    have hregion : Sits (putU32 (images order).length ++ putU32 comp.length ++ comp ++ pad) 0
        (putU32 (images order).length ++ (putU32 comp.length ++ (comp ++ pad))) := by
      exact sits_self _
    have h₄ := hregion.right
    have h₈ := h₄.right
    simp only [putU32_length] at h₄ h₈
    obtain ⟨mem, hmem, hbytes⟩ := @decompressFrameInto_compress lib cc hinv c (images order) comp arena
      ((images order).length + Lz4dec.outPad) hcomp (by omega) (by simp only [Lz4dec.outPad]; omega) (le_rfl)
    simp only [ChunkView.dictMemory, henc, hflags,
      getU32_of_sits hregion.left hlen, getU32_of_sits h₄.left hshort, some_bind, readFrame, h₈.left.slice, hcd, hmem, memBytes_eq hbytes]
    simp [chunkFlagDictSorted, chunkFlagDictFramed]
  | @framed c groups fs pad hc hgroups hne hraws hall =>
    have hblob := images_groups hraws
    rw [hgroups] at hblob
    have hcount := length_lt_of_groups hgroups hne hraws hlen
    have hcd : v.hdr.frameCodec = c := frameCodec_of_codec hcodec hc
    have hsum : ((fs.map (fun f => (f.1.length, f.2.length))).map Prod.fst).sum = (images order).length := by
      rw [map_map]
      exact sum_raw hblob
    have hdata := framedRegion_sits fs pad
    obtain ⟨mem, hmem, -, hread⟩ := fillFrames_eq hinv (b := (images order).length + Lz4dec.outPad)
      (by simp only [Lz4dec.outPad]; omega) hall 0 0 arena hdata (by rw [hblob]; omega)
    rw [hblob] at hread
    have harena : memBytes mem (images order).length = images order := memBytes_eq (by simpa using hread)
    refine ⟨[], mem, ?_, fun _ => ⟨rfl, harena⟩⟩
    simp only [ChunkView.dictMemory, henc, hflags, parseFramedDict_eq hblob hall hcount hlen,
      some_bind, hsum, hcd, hmem]
    rw [harena, append_nil]
    rfl

end Read

end ColumnarDictBlob
