import Pgrust.ColumnarDictBlob
import Pgrust.ColumnarIntRoundTrip

/-!
# Text chunks, written and read back

A text chunk gives its strings back exactly when every offset and length it narrows
to `u32` fits there.
-/
namespace ColumnarTextRoundTrip

open ByteImage ColumnarFormat ColumnarCodec ColumnarIntChunk ColumnarChunkView ColumnarChunkImage List
open ColumnarIntLanes ColumnarIntPlan ColumnarIntRoundTrip ColumnarAppend ColumnarTextChunk
open ColumnarTextLayout ColumnarDictBlob

variable {α β : Type} {v : ChunkView} {g : Nat} {c : Codec} {frames : List (List UInt8 × Nat)}
  {stored : StoredDict}

section Tables

variable {w g : Nat}

/-- The entries of granule `g` in a table of one fixed-width entry a row. -/
theorem sits_granule (hw : ∀ x ∈ xs, x.length = w) (hg : g * granuleRows ≤ xs.length) :
    Sits xs.flatten (g * granuleRows * w) (granuleSlice xs g).flatten := by
  refine ⟨(xs.take (g * granuleRows)).flatten, (xs.drop ((g + 1) * granuleRows)).flatten, ?_, ?_⟩
  · rw [append_assoc, ← flatten_append, ← drop_granule, ← flatten_append, take_append_drop]
  · rw [flatten_length_of_width (fun x hx => hw x (mem_of_mem_take hx)), length_take, Nat.min_eq_left hg]

/-- Slicing and splitting the table at granule `g`. -/
theorem lanes_granule (hp : Sits p 0 xs.flatten) (hw : ∀ x ∈ xs, x.length = w) (hg : g < granuleCount xs.length) :
    ∃ src, slice p (g * granuleRows * w) (min (xs.length - g * granuleRows) granuleRows * w) = some src ∧
      lanes w (min (xs.length - g * granuleRows) granuleRows) src = some (granuleSlice xs g) := by
  have hws : ∀ x ∈ granuleSlice xs g, x.length = w := fun x hx => hw x (mem_granuleSlice hx)
  have hlen := flatten_length_of_width hws
  have hlanes := lanes_flatten (granuleSlice xs g) [] hws
  rw [granuleSlice_length] at hlen hlanes
  rw [append_nil] at hlanes
  have hsits := hp.trans (sits_granule hw (granule_start_lt hg).le)
  rw [Nat.zero_add] at hsits
  exact ⟨_, hsits.slice_of_length hlen, hlanes⟩

/-- A table of little-endian numbers, read at granule `g`. -/
theorem numbers_granule {ns : List Nat} {p : List UInt8}
    (hp : Sits p 0 (ns.map (leBytes w)).flatten) (hlt : ∀ n ∈ ns, n < 256 ^ w)
    (hg : g < granuleCount ns.length) :
    ∃ src ls, slice p (g * granuleRows * w) (min (ns.length - g * granuleRows) granuleRows * w) = some src ∧
      lanes w (min (ns.length - g * granuleRows) granuleRows) src = some ls ∧
      ls.map leNat = granuleSlice ns g := by
  obtain ⟨src, hsrc, hls⟩ := lanes_granule hp (width_map (leBytes_length w) ns) (by rwa [length_map])
  rw [length_map] at hsrc hls
  refine ⟨src, _, hsrc, hls, ?_⟩
  rw [granuleSlice_map, map_map]
  have hid : (granuleSlice ns g).map (leNat ∘ leBytes w) = (granuleSlice ns g).map id := by
    apply map_congr_left
    intro n hn
    exact leNat_leBytes_of_lt (hlt n (mem_granuleSlice hn))
  rw [hid, map_id]

theorem granuleSlice_full {xs : List α} {i : Nat} (h : i + 1 < granuleCount xs.length) :
    (granuleSlice xs i).length = granuleRows := by
  have hstart := granule_start_lt h
  rw [granuleSlice_length]
  rw [Nat.add_mul] at hstart
  omega

/-- Blocks of the sizes of the granules, put together and cut again. -/
theorem drop_blocks {xs : List α} {f : Nat → List β}
    (hf : ∀ i, (f i).length = (granuleSlice xs i).length) {ng : Nat}
    (hng : ng = granuleCount xs.length) (hg : g < ng) :
    ((List.range ng).map f).flatten.drop (g * granuleRows) = ((List.range' g (ng - g)).map f).flatten := by
  induction g with
  | zero => simp [range_eq_range']
  | succ g ih =>
    have hfull : (f g).length = granuleRows := by
      rw [hf, granuleSlice_full (by omega)]
    have hstep : ng - g = (ng - (g + 1)) + 1 := by omega
    rw [Nat.add_mul, Nat.one_mul, ← drop_drop, ih (by omega), hstep, range'_succ,
      map_cons, flatten_cons, drop_left' hfull]

theorem granuleSlice_blocks {xs : List α} {f : Nat → List β}
    (hf : ∀ i, (f i).length = (granuleSlice xs i).length) (hg : g < granuleCount xs.length) :
    granuleSlice ((List.range (granuleCount xs.length)).map f).flatten g = f g := by
  have hstep : granuleCount xs.length - g = (granuleCount xs.length - (g + 1)) + 1 := by omega
  rw [granuleSlice, drop_blocks hf rfl hg, hstep, range'_succ, map_cons, flatten_cons]
  rcases Nat.lt_or_ge (g + 1) (granuleCount xs.length) with hlt | hge
  · exact take_left' (by rw [hf, granuleSlice_full hlt])
  · have hlast : granuleCount xs.length - (g + 1) = 0 := by omega
    have hlen : (f g).length ≤ granuleRows := by
      rw [hf, granuleSlice_length]
      exact Nat.min_le_right _ _
    rw [hlast, range'_zero, map_nil, flatten_nil, append_nil, take_of_length_le hlen]

theorem blocks_length {xs : List α} {f : Nat → List β} (hf : ∀ i, (f i).length = (granuleSlice xs i).length) :
    ((List.range (granuleCount xs.length)).map f).flatten.length = xs.length := by
  have hflat := flatten_granules xs (le_granuleCount xs.length)
  have hlens : (List.range (granuleCount xs.length)).map (List.length ∘ f) =
      (List.range (granuleCount xs.length)).map (List.length ∘ granuleSlice xs) :=
    map_congr_left (fun i _ => hf i)
  rw [length_flatten, map_map, hlens, ← map_map, ← length_flatten, hflat]

end Tables

section Image

/-- A plan whose payload has the length its header announces, in range. -/
structure Announced (plan : TextPlan) (ng : Nat) : Prop where
  length : plan.payload.length = plan.payloadLen
  fits : plan.payloadLen < 2 ^ 64
  flags : plan.flags = 0 ∨ plan.flags = 4 ∨ plan.flags = 12
  offs : ∀ g, g < ng → plan.granuleOff g < 2 ^ 64

/-- The image of a text plan: no block zone maps and no bloom filters. -/
def textImage (plan : TextPlan) (mm : Nat → I64 × I64) {ng : Nat} (h : Announced plan ng)
    (hng : ng < 2 ^ 32) : ChunkImage where
  hdr := plan.header ng
  gdir := (List.range ng).map (fun g => GranuleEntry.mk (plan.granuleOff g) (mm g).1 (mm g).2)
  zm := []
  bloom := []
  payload := plan.payload
  fits := by
    refine ⟨?_, hng, h.fits⟩
    change plan.flags < 2 ^ 16
    rcases h.flags with hf | hf | hf <;> rw [hf] <;> decide
  gdir_length := by simp [TextPlan.header]
  gdir_fits := forall_mem_map.mpr fun g hg => h.offs g (mem_range.mp hg)
  zm_length := by
    change 0 = if plan.flags &&& chunkFlagBlockZm ≠ 0 then _ else 0
    rcases h.flags with hf | hf | hf <;> rw [hf] <;> rfl
  bloom_length := by
    change 0 = if plan.flags &&& chunkFlagBloom ≠ 0 then _ else 0
    rcases h.flags with hf | hf | hf <;> rw [hf] <;> rfl
  bloom_bytes := by simp
  payload_length := h.length

/-- A view of a text chunk, by the plan it was written under. -/
structure ShowsText (v : ChunkView) (plan : TextPlan) (n : Nat) : Prop where
  encoding : v.hdr.encoding = plan.encoding
  width : v.hdr.width = UInt8.ofNat plan.width
  flags : v.hdr.flags = plan.flags
  aux : v.hdr.aux = BitVec.ofNat 64 plan.aux
  codec : v.hdr.codec = plan.codec
  ngranules : v.hdr.ngranules = granuleCount n
  nrows : v.nrows = n
  payload : v.payload = some plan.payload
  part : Sits v.part v.payloadOff plan.payload
  granule : ∀ g, g < granuleCount n → ∃ e, v.granule g = some e ∧ e.payloadOff = plan.granuleOff g

theorem showsText_view (h : Announced plan (granuleCount nrows)) (hng : granuleCount nrows < 2 ^ 32)
    (hsits : Sits part b (textImage plan mm h hng).bytes) :
    ShowsText ((textImage plan mm h hng).view part b nrows) plan nrows where
  encoding := rfl
  width := rfl
  flags := rfl
  aux := rfl
  codec := rfl
  ngranules := rfl
  nrows := rfl
  payload := ChunkImage.view_payload hsits _
  part := ChunkImage.payload_sits hsits _
  granule := by
    intro g hg
    refine ⟨⟨plan.granuleOff g, (mm g).1, (mm g).2⟩, ChunkImage.view_granule hsits _ g ?_, rfl⟩
    simp [textImage, getElem?_range hg]

end Image

section Rows

variable {lib : Compressors} {cc : CodecCtx} {strings : List (List UInt8)}

/-- The row pointers of a granule, from the offset table at the head of the payload. -/
theorem rowPtrs_eq {p mem : List UInt8} {offs : List Nat} {g : Nat}
    (hp : Sits p 0 (offs.map putU32).flatten) (hlt : ∀ o ∈ offs, o < 2 ^ 32)
    (hg : g < granuleCount offs.length) :
    ChunkView.rowPtrs p g (min (offs.length - g * granuleRows) granuleRows) mem =
      some ((granuleSlice offs g).map (fun o => Datum.ptr (mem.drop o))) := by
  obtain ⟨src, ls, hsrc, hls, hnums⟩ := @numbers_granule 4 g offs p hp hlt hg
  have hmap : ls.map (fun c => Datum.ptr (mem.drop (leNat c))) =
      (ls.map leNat).map (fun o => Datum.ptr (mem.drop o)) := by
    rw [map_map]
    rfl
  simp [ChunkView.rowPtrs, hsrc, hls, hmap, hnums]

theorem imageOffs_lt (strings) (off : Nat) : ∀ o ∈ imageOffs off strings, o < off + imagesLen strings := by
  induction strings generalizing off with
  | nil => simp [imageOffs]
  | cons s strings ih =>
    have hb := image_bounds s
    have hlen := imagesLen_cons s strings
    intro o ho
    rcases mem_cons.mp ho with rfl | ho
    · omega
    · have := ih _ o ho
      omega

theorem rawText_decodes (hs : Sized strings) (hlen : imagesLen strings < 2 ^ 32)
    (hplan : rawTextPlan strings = some plan) (hv : ShowsText v plan strings.length)
    (hg : g < granuleCount strings.length) (st : DecodeState) :
    ∃ ds, v.decodeGranule lib g st = some (ds, st) ∧ ds.map varlenaBytes = (granuleSlice strings g).map .ok := by
  have hoffs := @offTable_eq strings hs 0 (by decide)
  rw [Nat.zero_add, if_pos hlen] at hoffs
  simp only [rawTextPlan, hoffs, foldl_images, some_bind, Option.some.injEq] at hplan
  subst hplan
  have hcount := imageOffs_length 0 strings
  have htab := flatten_map_length putU32_length (imageOffs 0 strings)
  rw [hcount] at htab
  have hblob := hv.part.right
  rw [htab] at hblob
  obtain ⟨post, hpost⟩ := hblob.drop
  have hroom := hblob.length_le
  have hptrs := @rowPtrs_eq _ (images strings ++ post) _ g
    ((sits_self ((imageOffs 0 strings).map putU32).flatten).append_right (images strings))
    (fun o ho => by have := imageOffs_lt strings 0 o ho; omega) (by rwa [hcount])
  rw [hcount] at hptrs
  have hnot : ¬ v.part.length < v.payloadOff + strings.length * 4 := by omega
  refine ⟨(granuleSlice (imageOffs 0 strings) g).map (fun o => Datum.ptr ((images strings ++ post).drop o)), ?_, ?_⟩
  · simp [ChunkView.decodeGranule, granuleRows_eq hv.nrows hg, hv.encoding,
      ChunkView.decodeRawText, hv.payload, hv.nrows, hnot, hpost, hptrs]
  · have hbytes := imageOffs_varlenaBytes hs [] post
    rw [map_map, ← granuleSlice_map, ← granuleSlice_map, ← hbytes]
    rfl

theorem imagesLen_le (strings) : imagesLen strings ≤ strings.flatten.length + 7 * strings.length := by
  induction strings with
  | nil => simp [imagesLen]
  | cons s strings =>
    have hb := image_bounds s
    have hlen := imagesLen_cons s strings
    rw [flatten_cons, length_append, length_cons]
    omega

theorem granuleBlob_eq (strings) (g : Nat) :
    granuleBlob strings g = images (granuleSlice strings g) := by rw [granuleBlob, foldl_images]

/-- The compressed granules of a text chunk, and the tenth they save. -/
structure CompressedText (lib : Compressors) (cc : CodecCtx) (strings : List (List UInt8)) (c : Codec)
    (frames : List (List UInt8 × Nat)) : Prop where
  codec : c ≠ .none
  wins : (strings.length * 4 + framesLen frames) * 10 ≤ (strings.length * 4 + imagesLen strings) * 9
  frame : ∀ g, g < granuleCount strings.length → ∃ comp,
    frames[g]? = some (comp, imagesLen (granuleSlice strings g) % 2 ^ 32) ∧
      cc.compress lib c (images (granuleSlice strings g)) = some comp

theorem textFrames_get {c : Codec} (hc : c ≠ .none) (ng : Nat) :
    ∃ frames, textFrames lib cc strings ng c = some frames ∧ ∀ g, g < ng → ∃ comp,
      frames[g]? = some (comp, imagesLen (granuleSlice strings g) % 2 ^ 32) ∧
        cc.compress lib c (images (granuleSlice strings g)) = some comp := by
  choose comp hcomp using @compress_isSome lib cc c hc
  have hmap : textFrames lib cc strings ng c = some ((List.range ng).map (fun g =>
      (comp (granuleBlob strings g), (granuleBlob strings g).length % 2 ^ 32))) := by
    apply mapM_eq_some
    intro g _
    simp [hcomp]
  refine ⟨_, hmap, ?_⟩
  intro g hg
  refine ⟨comp (images (granuleSlice strings g)), ?_, hcomp _⟩
  simp [getElem?_range hg, granuleBlob_eq]

/-- The compressed-text candidate never panics. -/
theorem compressedText_cases : compressedText lib cc strings (granuleCount strings.length) = some none ∨
      ∃ c frames, compressedText lib cc strings (granuleCount strings.length) = some (some (c, frames)) ∧
        CompressedText lib cc strings c frames := by
  unfold compressedText
  cases hcodec : textCodec lib cc strings (granuleCount strings.length) with
  | none => exact .inl rfl
  | some c =>
    have hc : c ≠ .none := by
      unfold textCodec at hcodec
      split at hcodec
      · cases hcodec
      · exact cc.pick_ne_none lib hcodec
    obtain ⟨frames, hframes, hget⟩ := @textFrames_get lib cc strings c hc (granuleCount strings.length)
    simp only [hframes, some_bind]
    split
    · exact .inr ⟨c, frames, rfl, hc, by assumption, hget⟩
    · exact .inl rfl

/-- The gate keeps the compressed payload below `2 ^ 32` bytes as long as the strings are. -/
theorem CompressedText.framesLen_lt (h : CompressedText lib cc strings c frames)
    (hrows : strings.length ≤ rgRows) (htotal : strings.flatten.length < 2 ^ 32) : framesLen frames < 2 ^ 32 := by
  have himages := imagesLen_le strings
  have hwins := h.wins
  simp only [rgRows] at hrows
  omega

/-- A granule of a compressed text chunk in view. -/
structure TextShown (lib : Compressors) (cc : CodecCtx) (strings : List (List UInt8)) (c : Codec)
    (frames : List (List UInt8 × Nat)) (v : ChunkView) (g : Nat) : Prop
    extends CompressedText lib cc strings c frames where
  inverse : lib.Inverse
  rows : strings.length ≤ rgRows
  total : strings.flatten.length < 2 ^ 32
  shows : ShowsText v (lz4TextPlan strings (granuleCount strings.length) c frames) strings.length
  granule : g < granuleCount strings.length

/-- What the reader of a compressed text granule finds: the narrowed raw length and the
stored bytes. -/
theorem lz4Text_frame (h : TextShown lib cc strings c frames v g) :
    ∃ comp, cc.compress lib c (images (granuleSlice strings g)) = some comp ∧ comp.length < 2 ^ 32 ∧
      ∀ st, v.decodeGranule lib g st = (do
        let arena ← decompressFrameInto lib c comp st.arena
          (imagesLen (granuleSlice strings g) % 2 ^ 32 + Lz4dec.outPad)
          (imagesLen (granuleSlice strings g) % 2 ^ 32)
        let vals ← ChunkView.rowPtrs (lz4TextPlan strings (granuleCount strings.length) c frames).payload g
          (min (strings.length - g * granuleRows) granuleRows)
          (memBytes arena (imagesLen (granuleSlice strings g) % 2 ^ 32))
        some (vals, ⟨st.dict, arena⟩)) := by
  have hv := h.shows
  obtain ⟨comp, hget, hcomp⟩ := h.frame g h.granule
  obtain ⟨e, he, hoff⟩ := hv.granule g h.granule
  have hlen := h.framesLen_lt h.rows h.total
  have hsits : Sits (lz4TextPlan strings (granuleCount strings.length) c frames).payload
      (strings.length * 4) (framesImage frames).flatten := by
    have hself := (sits_self (lz4TextPlan strings (granuleCount strings.length) c frames).payload)
    have hright := hself.right
    rw [flatten_map_length putU32_length, blocks_length (fun i => relOffs_length 0 _), Nat.zero_add] at hright
    exact hright
  obtain ⟨hraw, hclen, hslice⟩ := read_frame_at hsits hget hlen (Nat.mod_lt _ (by decide))
  have hcodec : v.hdr.frameCodec = c := frameCodec_of_codec hv.codec h.codec
  refine ⟨comp, hcomp, by have := frame_length_le hget; omega, ?_⟩
  intro st
  have henc : v.hdr.encoding = .lz4Text := hv.encoding
  have hoff' : e.payloadOff = strings.length * 4 + framesLen (frames.take g) := hoff
  simp [ChunkView.decodeGranule, granuleRows_eq hv.nrows h.granule, henc, ChunkView.decodeLz4Text,
    hv.payload, he, hoff', hraw, hclen, readFrame, hslice, hcodec]

/-- A compressed text granule below `2 ^ 32` image bytes gives its strings back. -/
theorem lz4Text_decodes (hs : Sized strings) (h : TextShown lib cc strings c frames v g)
    (hfit : imagesLen (granuleSlice strings g) < 2 ^ 32) (st : DecodeState) :
    ∃ ds st', v.decodeGranule lib g st = some (ds, st') ∧
      ds.map varlenaBytes = (granuleSlice strings g).map .ok ∧ st'.dict = st.dict := by
  obtain ⟨comp, hcomp, hclen, hdec⟩ := lz4Text_frame h
  rw [Nat.mod_eq_of_lt hfit, ← images_length] at hdec
  rw [← images_length] at hfit
  have hsized : Sized (granuleSlice strings g) := fun s hmem => hs s (mem_granuleSlice hmem)
  obtain ⟨mem, hmem, hbytes⟩ := @decompressFrameInto_compress lib cc h.inverse c _ comp st.arena
    ((images (granuleSlice strings g)).length + Lz4dec.outPad) hcomp (by omega)
    (by simp only [Lz4dec.outPad]; omega) (le_rfl)
  have hblocks : ∀ i, (relOffs 0 (granuleSlice strings i)).length = (granuleSlice strings i).length :=
    fun i => relOffs_length 0 _
  have hcount := blocks_length hblocks
  have hptrs := @rowPtrs_eq (lz4TextPlan strings (granuleCount strings.length) c frames).payload
    (images (granuleSlice strings g)) _ g ((sits_self _).append_right _) (by
      intro o ho
      obtain ⟨ls, hls, ho⟩ := mem_flatten.mp ho
      obtain ⟨i, -, rfl⟩ := mem_map.mp hls
      exact relOffs_lt 0 _ o ho) (by rw [hcount]; exact h.granule)
  rw [hcount, granuleSlice_blocks hblocks h.granule, relOffs_eq (by rwa [Nat.zero_add, ← images_length])] at hptrs
  refine ⟨(imageOffs 0 (granuleSlice strings g)).map
    (fun o => Datum.ptr ((images (granuleSlice strings g)).drop o)), ⟨st.dict, mem⟩, ?_, ?_, rfl⟩
  · simp only [hdec, hmem, memBytes_eq hbytes, hptrs, some_bind]
  · have hbytes := imageOffs_varlenaBytes hsized [] []
    rw [append_nil] at hbytes
    rw [map_map, ← hbytes]
    rfl

/-- A compressed text granule of `2 ^ 32` image bytes or more is read under a narrowed
length and does not come back. -/
theorem lz4Text_fails (h : TextShown lib cc strings c frames v g)
    (hbig : 2 ^ 32 ≤ imagesLen (granuleSlice strings g)) (st : DecodeState) : v.decodeGranule lib g st = none := by
  obtain ⟨comp, hcomp, -, hdec⟩ := lz4Text_frame h
  have hne : (images (granuleSlice strings g)).length ≠ imagesLen (granuleSlice strings g) % 2 ^ 32 := by
    rw [images_length]
    omega
  rw [hdec, decompressFrameInto_length h.inverse hcomp (le_rfl) hne]
  rfl

theorem decodeFrom_none (h : ∀ st, v.decodeGranule lib g st = none) (k i : Nat) (st : DecodeState)
    (hi : i ≤ g) (hk : g < i + k) : v.decodeFrom lib k i st = none := by
  induction k generalizing i st with
  | zero => omega
  | succ k ih =>
    rw [ChunkView.decodeFrom]
    rcases Nat.lt_or_ge i g with hlt | hge
    · cases hdec : v.decodeGranule lib i st with
      | none => rfl
      | some r =>
        simp only [some_bind, ih (i + 1) r.2 hlt (by omega)]
        rfl
    · have heq : i = g := by omega
      rw [heq, h]
      rfl

end Rows

section Dict

variable {lib : Compressors} {cc : CodecCtx} {strings : List (List UInt8)}

/-- The plan of a dictionary chunk, from what is stored for its blob. -/
def dictLayout (strings : List (List UInt8)) (stored : StoredDict) : TextPlan where
  encoding := stored.encoding
  codec := stored.codec
  width := codeW (dictPass strings).order.length
  flags := chunkFlagDictSorted ||| (if stored.framed then chunkFlagDictFramed else 0)
  aux := (sortedDict (dictPass strings).order).length
  payloadLen := align4 (strings.length * codeW (dictPass strings).order.length) +
    (sortedDict (dictPass strings).order).length * 4 + stored.len
  granuleOff := fun g => g * granuleRows * codeW (dictPass strings).order.length
  payload := padTo 4 ((sortedCodes (dictPass strings)).map
      (leBytes (codeW (dictPass strings).order.length))).flatten ++
    ((imageOffs 0 (sortedDict (dictPass strings).order)).map putU32).flatten ++ stored.bytes

theorem imagesLen_sorted (order : List (List UInt8)) : imagesLen (sortedDict order) = imagesLen order :=
  ((sortedDict_perm order).map _).sum_eq

/-- The dictionary is written exactly when the offsets of its images fit `u32`. -/
theorem dictPlan_eq (hs : Sized strings) : (imagesLen (dictPass strings).order < 2 ^ 32 → ∃ stored,
        StoredSpec lib cc (sortedDict (dictPass strings).order) stored ∧
        stored.bytes.length = stored.len ∧ dictPlan lib cc strings = some (dictLayout strings stored)) ∧
      (2 ^ 32 ≤ imagesLen (dictPass strings).order → dictPlan lib cc strings = none) := by
  have hoffs := @offTable_eq _ (sortedDict_sized hs) 0 (by decide)
  rw [Nat.zero_add, imagesLen_sorted] at hoffs
  constructor
  · intro hfit
    rw [if_pos hfit] at hoffs
    obtain ⟨stored, hstored, hspec, hlen⟩ := @storedDict_spec lib cc
      (align4 (strings.length * codeW (dictPass strings).order.length) +
        (sortedDict (dictPass strings).order).length * 4)
      (sortedDict (dictPass strings).order) (by rwa [imagesLen_sorted])
    rw [← foldl_images] at hstored
    refine ⟨stored, hspec, hlen, ?_⟩
    simp only [dictPlan, hstored, hoffs]
    rfl
  · intro hbig
    rw [if_neg (by omega)] at hoffs
    simp [dictPlan, hoffs]

theorem sortedCodes_length (strings) : (sortedCodes (dictPass strings)).length = strings.length := by
  have h := congrArg List.length (sortedCodes_rows strings)
  rwa [length_map, length_map] at h

theorem codeW_cases (ndv : Nat) : codeW ndv = 1 ∨ codeW ndv = 2 ∨ codeW ndv = 4 := by
  unfold codeW
  split_ifs
  · exact .inl rfl
  · exact .inr (.inl rfl)
  · exact .inr (.inr rfl)

theorem codeWidth_ofNat (h : w = 1 ∨ w = 2 ∨ w = 4) : codeWidth (UInt8.ofNat w) = w := by
  rcases h with rfl | rfl | rfl <;> rfl

theorem sortedCodes_fit (hdict : useDict strings = true) :
    ∀ c ∈ sortedCodes (dictPass strings), c < 256 ^ codeW (dictPass strings).order.length := by
  intro c hc
  have hlt := sortedCodes_lt hc
  have hndv : (dictPass strings).order.length ≤ 65536 := by
    simp only [useDict, Bool.and_eq_true, decide_eq_true_eq] at hdict
    exact hdict.1
  unfold codeW
  split_ifs <;> omega

theorem codes_flatten_length (strings) :
    ((sortedCodes (dictPass strings)).map (leBytes (codeW (dictPass strings).order.length))).flatten.length =
      strings.length * codeW (dictPass strings).order.length := by
  rw [flatten_map_length (leBytes_length _), sortedCodes_length]

theorem dictLayout_head (strings) : (padTo 4 ((sortedCodes (dictPass strings)).map
        (leBytes (codeW (dictPass strings).order.length))).flatten).length =
        align4 (strings.length * codeW (dictPass strings).order.length) ∧
      ((imageOffs 0 (sortedDict (dictPass strings).order)).map putU32).flatten.length =
        (sortedDict (dictPass strings).order).length * 4 := by
  constructor
  · rw [padTo_length (by decide), codes_flatten_length, align4]
  · rw [flatten_map_length putU32_length, imageOffs_length]

/-- Where the three parts of a dictionary payload are. -/
theorem dictLayout_sits (stored) (h : Sits b o (dictLayout strings stored).payload) :
    Sits b o ((sortedCodes (dictPass strings)).map (leBytes (codeW (dictPass strings).order.length))).flatten ∧
      Sits b (o + align4 (strings.length * codeW (dictPass strings).order.length))
        ((imageOffs 0 (sortedDict (dictPass strings).order)).map putU32).flatten ∧
      Sits b (o + (align4 (strings.length * codeW (dictPass strings).order.length) +
        (sortedDict (dictPass strings).order).length * 4)) stored.bytes := by
  have hcodes := h.left.left
  have hoffs := h.left.right
  have hbytes := h.right
  obtain ⟨hpad, htab⟩ := dictLayout_head strings
  rw [length_append, hpad, htab] at hbytes
  rw [hpad] at hoffs
  exact ⟨hcodes.left, hoffs, hbytes⟩

/-- The dictionary table of a scan is empty or holds the strings of the dictionary. -/
def DictReady (order : List (List UInt8)) (st : DecodeState) : Prop :=
  st.dict = [] ∨ st.dict.map varlenaBytes = order.map .ok

/-- What both dictionary builders read off the payload. -/
structure DictReads (v : ChunkView) (strings : List (List UInt8)) (stored : StoredDict) : Prop where
  ndv : v.hdr.aux.toNat = (sortedDict (dictPass strings).order).length
  width : v.hdr.width.toNat = codeW (dictPass strings).order.length
  offTab : slice (dictLayout strings stored).payload
    (align4 (strings.length * codeW (dictPass strings).order.length))
    ((sortedDict (dictPass strings).order).length * 4) =
    some ((imageOffs 0 (sortedDict (dictPass strings).order)).map putU32).flatten
  room : ¬ (dictLayout strings stored).payload.length <
    align4 (strings.length * codeW (dictPass strings).order.length) +
      (sortedDict (dictPass strings).order).length * 4
  blob : (dictLayout strings stored).payload.drop (align4 (strings.length * codeW (dictPass strings).order.length) +
      (sortedDict (dictPass strings).order).length * 4) = stored.bytes
  lanes : lanes 4 (sortedDict (dictPass strings).order).length
    ((imageOffs 0 (sortedDict (dictPass strings).order)).map putU32).flatten =
    some ((imageOffs 0 (sortedDict (dictPass strings).order)).map putU32)

theorem leNat_imageOffs {order : List (List UInt8)} (hfit : imagesLen order < 2 ^ 32) :
    ((imageOffs 0 order).map putU32).map leNat = imageOffs 0 order := by
  rw [map_map]
  have hid : (imageOffs 0 order).map (leNat ∘ putU32) = (imageOffs 0 order).map id := by
    apply map_congr_left
    intro o ho
    have hlt := imageOffs_lt _ 0 o ho
    exact leNat_leBytes_of_lt (by omega)
  rw [hid, map_id]

/-- Codes looked up in a dictionary table give the strings they stand for. -/
theorem mapM_dict {order : List (List UInt8)} {dict : List Datum}
    (hdict : dict.map varlenaBytes = order.map .ok) {codes : List Nat} {rows : List (List UInt8)}
    (hrows : codes.map (fun c => order[c]?) = rows.map some) :
    ∃ ds, codes.mapM (fun c => dict[c]?) = some ds ∧ ds.map varlenaBytes = rows.map .ok := by
  induction codes generalizing rows with
  | nil =>
    cases rows with
    | nil => exact ⟨[], rfl, rfl⟩
    | cons => cases hrows
  | cons c codes ih =>
    cases rows with
    | nil => cases hrows
    | cons s =>
      simp only [map_cons, List.cons.injEq] at hrows
      obtain ⟨ds, hds, hmap⟩ := ih hrows.2
      have hc : (dict.map varlenaBytes)[c]? = some (.ok s) := by
        rw [hdict, getElem?_map, hrows.1, Option.map_some]
      rw [getElem?_map] at hc
      obtain ⟨d, hd, hok⟩ := Option.map_eq_some_iff.mp hc
      refine ⟨d :: ds, ?_, ?_⟩
      · rw [mapM_cons, hd, hds]
        rfl
      · rw [map_cons, map_cons, hok, hmap]

theorem granule_rows (strings) (g : Nat) : (granuleSlice (sortedCodes (dictPass strings)) g).map
        (fun c => (sortedDict (dictPass strings).order)[c]?) = (granuleSlice strings g).map some := by
  rw [← granuleSlice_map, sortedCodes_rows, granuleSlice_map]

/-- A dictionary chunk in view. -/
structure DictShown (lib : Compressors) (cc : CodecCtx) (strings : List (List UInt8)) (stored : StoredDict)
    (v : ChunkView) : Prop where
  inverse : lib.Inverse
  sized : Sized strings
  dict : useDict strings = true
  spec : StoredSpec lib cc (sortedDict (dictPass strings).order) stored
  fit : imagesLen (sortedDict (dictPass strings).order) < 2 ^ 32
  shows : ShowsText v (dictLayout strings stored) strings.length

variable (h : DictShown lib cc strings stored v)

include h

theorem DictShown.reads : DictReads v strings stored := by
  have hfit := h.fit
  have hndv := length_le_imagesLen (sortedDict (dictPass strings).order)
  obtain ⟨-, hoffs, -⟩ := dictLayout_sits stored (sits_self (dictLayout strings stored).payload)
  rw [Nat.zero_add] at hoffs
  obtain ⟨hpad, htab⟩ := dictLayout_head strings
  have hroom := hoffs.length_le
  have hlanes := lanes_map putU32_length (imageOffs 0 (sortedDict (dictPass strings).order))
  rw [imageOffs_length] at hlanes
  refine ⟨?_, ?_, hoffs.slice_of_length htab, by omega, ?_, hlanes⟩
  · rw [h.shows.aux]
    change (BitVec.ofNat 64 (sortedDict (dictPass strings).order).length).toNat = _
    rw [BitVec.toNat_ofNat, Nat.mod_eq_of_lt (by omega)]
  · rw [h.shows.width]
    change (UInt8.ofNat (codeW _)).toNat = _
    rcases codeW_cases (dictPass strings).order.length with h | h | h <;> rw [h] <;> rfl
  · apply drop_left'
    rw [length_append, hpad, htab]

/-- The pointer table of a fresh build: offsets into the images of the entries. -/
theorem buildDict_fresh (arena : Lz4dec.Mem) :
    ∃ post arena', v.buildDict lib ⟨[], arena⟩ = some ⟨(imageOffs 0 (sortedDict (dictPass strings).order)).map
          (fun o => .ptr ((images (sortedDict (dictPass strings).order) ++ post).drop o)), arena'⟩ ∧
      (stored.framed = true → post = [] ∧ memBytes arena' (images (sortedDict (dictPass strings).order)).length =
          images (sortedDict (dictPass strings).order)) := by
  have hr := h.reads
  have hv := h.shows
  obtain ⟨-, -, hpart⟩ := dictLayout_sits stored hv.part
  obtain ⟨post, arena', hmem, hframed⟩ := dictMemory_eq h.inverse h.spec h.fit hv.encoding hv.codec
    hv.flags hpart arena
  refine ⟨post, arena', ?_, hframed⟩
  rw [← leNat_imageOffs h.fit, map_map]
  simp only [ChunkView.buildDict, hr.ndv, hv.payload, hv.nrows, hr.width, hr.offTab, hr.room, hr.blob, hmem, hr.lanes,
    some_bind]
  rfl

theorem buildDict_eq (st : DecodeState) (hst : DictReady (sortedDict (dictPass strings).order) st) :
    ∃ st', v.buildDict lib st = some st' ∧
      st'.dict.map varlenaBytes = (sortedDict (dictPass strings).order).map .ok := by
  obtain ⟨_ | ⟨p, dict⟩, arena⟩ := st
  · obtain ⟨post, arena', hbuild, -⟩ := buildDict_fresh h arena
    refine ⟨_, hbuild, ?_⟩
    have hbytes := imageOffs_varlenaBytes (sortedDict_sized h.sized) [] post
    rw [map_map, ← hbytes]
    rfl
  · exact ⟨_, rfl, hst.resolve_left (cons_ne_nil _ _)⟩

theorem granuleCodes_eq (hg : g < granuleCount strings.length) :
    v.granuleCodes g (min (strings.length - g * granuleRows) granuleRows) =
      some (granuleSlice (sortedCodes (dictPass strings)) g) := by
  obtain ⟨hcodes, -, -⟩ := dictLayout_sits stored (sits_self (dictLayout strings stored).payload)
  have hw : codeWidth v.hdr.width = codeW (dictPass strings).order.length := by
    rw [h.shows.width]
    exact codeWidth_ofNat (codeW_cases _)
  obtain ⟨src, ls, hsrc, hls, hnums⟩ := numbers_granule hcodes (sortedCodes_fit h.dict)
    (by rwa [sortedCodes_length])
  rw [sortedCodes_length] at hsrc hls
  simp [ChunkView.granuleCodes, h.shows.payload, hw, hsrc, hls, hnums]

theorem dict_decodes (hg : g < granuleCount strings.length) (st : DecodeState)
    (hst : DictReady (sortedDict (dictPass strings).order) st) :
    ∃ ds st', v.decodeGranule lib g st = some (ds, st') ∧ ds.map varlenaBytes = (granuleSlice strings g).map .ok ∧
      DictReady (sortedDict (dictPass strings).order) st' := by
  obtain ⟨st', hbuild, hready⟩ := buildDict_eq h st hst
  obtain ⟨ds, hds, hmap⟩ := mapM_dict hready (granule_rows strings g)
  have hcodes := granuleCodes_eq h hg
  have henc : v.hdr.encoding = .dict ∨ v.hdr.encoding = .lz4Dict := by
    rw [h.shows.encoding]
    cases h.spec with
    | plain => exact .inl rfl
    | single | framed => exact .inr rfl
  refine ⟨ds, st', ?_, hmap, .inr hready⟩
  rcases henc with henc | henc <;>
    simp [ChunkView.decodeGranule, granuleRows_eq h.shows.nrows hg, henc, ChunkView.decodeDict, hbuild, hcodes, hds]

end Dict

end ColumnarTextRoundTrip
