import Pgrust.ColumnarIntPlan

/-!
# Fixed-width chunks are read back as they were written

The image `encode_int_chunk` leaves behind a body, what a view of it shows, and the
decoding of all its granules.
-/
namespace ColumnarIntRoundTrip

open ByteImage ColumnarFormat ColumnarCodec ColumnarSketch ColumnarIntChunk ColumnarChunkView List
open ColumnarChunkImage ColumnarIntLanes ColumnarIntPlan

def framesImage (frames : List (List UInt8 × Nat)) : List (List UInt8) := frames.map (fun f => frameImage f.2 f.1)

/-- The payload bytes of a plan. -/
def planPayload (base : I64) (vals : List I64) (plan : IntPlan) : List UInt8 :=
  if plan.encoding = .const then []
  else if plan.codec ≠ .none ∨ plan.encoding = .deltaFor then (framesImage plan.frames).flatten
  else (vals.map (lane plan.encoding plan.width base)).flatten

section

variable (frames : List (List UInt8 × Nat))
include frames

theorem framesImage_length : (framesImage frames).flatten.length = framesLen frames := by
  rw [length_flatten, framesImage, map_map]
  congr 1
  apply map_congr_left
  intro f _
  exact frameImage_length f.2 f.1

theorem entryOff_framesImage (g : Nat) : entryOff (framesImage frames) g = framesLen (frames.take g) := by
  rw [entryOff, ← length_flatten, framesImage, ← map_take, ← framesImage_length]
  rfl

theorem framesLen_take_le (g : Nat) : framesLen (frames.take g) ≤ framesLen frames := by
  conv_rhs => rw [← take_append_drop g frames, framesLen, map_append, sum_append]
  exact Nat.le_add_right _ _

end

variable {encoding : Encoding} {w ng g : Nat} {frames : List (List UInt8 × Nat)} {vals : List I64}
  {lo hi : I64} {plan : IntPlan} {v : ChunkView}

section Payload

variable {lib : Compressors} {cc : CodecCtx} {base : I64} {vals : List I64} {plan : IntPlan}

theorem laned_ne (h : Laned base vals encoding w) : encoding ≠ .const ∧ encoding ≠ .deltaFor := by
  cases h with
  | «for» w hw h => exact ⟨Encoding.noConfusion, Encoding.noConfusion⟩
  | raw => exact ⟨Encoding.noConfusion, Encoding.noConfusion⟩

theorem planPayload_plain (h : Laned base vals encoding w) :
    planPayload base vals ⟨encoding, w, .none, [], n⟩ = (vals.map (lane encoding w base)).flatten := by
  simp [planPayload, laned_ne h]

theorem planPayload_framed (hne : encoding ≠ .const) (h : c ≠ .none ∨ encoding = .deltaFor) :
    planPayload base vals ⟨encoding, w, c, frames, n⟩ = (framesImage frames).flatten := by
  simp [planPayload, hne, h]

section

variable (h : PlanSpec lib cc base vals ng plan)
include h

theorem planPayload_length : (planPayload base vals plan).length = plan.payloadLen := by
  cases h with
  | const => rfl
  | plain hl => rw [planPayload_plain hl, hl.flatten_length]
  | framed comp hl hc => rw [planPayload_framed (laned_ne hl).1 (.inl hc), framesImage_length]
  | delta => rw [planPayload_framed Encoding.noConfusion (.inr rfl), framesImage_length]

/-- The payload loop of the encoder appends exactly the payload of its plan. -/
theorem intPayload_eq (hng : vals.length ≤ ng * granuleRows) (hbody : 4 ∣ body.length) :
    intPayload body vals ng base plan = some (body ++ planPayload base vals plan) := by
  cases h with
  | const => simp [intPayload, planPayload]
  | @plain encoding w hl =>
    have hgran : (List.range ng).mapM (fun g => encIntGranule vals g encoding w base) =
        some ((List.range ng).map (laneBytes encoding w base vals)) := by
      apply mapM_eq_some
      intro g _
      exact hl.encIntGranule g
    rw [planPayload_plain hl, ← flatten_laneBytes hng]
    cases hl with
    | «for» w hw h => simp [intPayload, hgran]
    | raw => simp [intPayload, hgran]
  | framed comp hl hc =>
    rw [planPayload_framed (laned_ne hl).1 (.inl hc), framesImage, ← foldl_pushFrame hbody]
    cases hl with
    | «for» w hw h => simp [intPayload, hc]
    | raw => simp [intPayload, hc]
  | delta =>
    rw [planPayload_framed Encoding.noConfusion (.inr rfl), framesImage, ← foldl_pushFrame hbody]
    rfl

theorem granuleOff_le (hg : g * granuleRows ≤ vals.length) : plan.granuleOff g ≤ vals.length * 8 := by
  cases h with
  | const => simp [IntPlan.granuleOff]
  | plain hl =>
    simp only [IntPlan.granuleOff, laned_ne hl]
    exact Nat.mul_le_mul hg hl.width_le
  | framed comp hl hc hcomp hsize =>
    simp only [IntPlan.granuleOff, ne_eq, hc]
    exact (framesLen_take_le _ g).trans hsize
  | delta stored img himg hstored hsize =>
    simp only [IntPlan.granuleOff, or_true]
    exact (framesLen_take_le _ g).trans hsize

end

end Payload

/-- What an integer chunk image shows of the rows it was made from. -/
structure IntImage (lib : Compressors) (cc : CodecCtx) (vals : List I64) (m : I64 × I64)
    (img : ChunkImage) : Prop where
  ngranules : img.hdr.ngranules = granuleCount vals.length
  aux : img.hdr.aux = m.1
  bounds : ∀ v ∈ vals, m.1.toInt ≤ v.toInt ∧ v.toInt ≤ m.2.toInt
  plan : ∃ plan, PlanSpec lib cc m.1 vals (granuleCount vals.length) plan ∧
    img.hdr.encoding = plan.encoding ∧ img.hdr.width = UInt8.ofNat plan.width ∧
    img.hdr.codec = plan.codec ∧ img.payload = planPayload m.1 vals plan ∧
    ∀ g, g < granuleCount vals.length → img.gdir[g]? =
      some ⟨plan.granuleOff g, (granuleMinmax vals id g).1, (granuleMinmax vals id g).2⟩
  zm : img.hdr.flags &&& chunkFlagBlockZm ≠ 0 → ∀ g b, g < granuleCount vals.length →
    b < blocksPerGranule → img.zm[g * blocksPerGranule + b]? = some (blockMinmax vals g b)
  bloom : img.hdr.flags &&& chunkFlagBloom ≠ 0 → ∀ g, g < granuleCount vals.length →
    img.bloom[g]? = some (bloomOf (granuleSlice vals g))

section Image

variable {lib : Compressors} {cc : CodecCtx}

theorem intFlags_lt (vals) (min max : I64) (gmm : List (I64 × I64)) : intFlags vals min max gmm < 4 := by
  unfold intFlags
  split
  · decide
  · split <;> decide

theorem granuleDir_eq (mm : Nat → I64 × I64) (off : Nat → Nat) (ng : Nat) :
    granuleDir ((List.range ng).map mm) off =
      (((List.range ng).map (fun g => GranuleEntry.mk (off g) (mm g).1 (mm g).2)).map
        GranuleEntry.encode).flatten := by
  rw [granuleDir]
  congr 1
  apply ext_getElem
  · simp
  · simp

section

variable {vals : List I64} {lo hi : I64} {plan : IntPlan}
  (hspec : PlanSpec lib cc lo vals (granuleCount vals.length) plan) (hrows : vals.length ≤ rgRows)
include hspec hrows

theorem intHeader_fits (mm) : (intHeader vals (granuleCount vals.length) lo hi mm plan).Fits := by
  have hlen : plan.payloadLen ≤ vals.length * 8 := hspec.payloadLen_le
  simp only [rgRows] at hrows
  refine ⟨lt_trans (intFlags_lt _ _ _ _) (by decide), ?_, ?_⟩
  · simp only [intHeader, granuleCount, granuleRows]
    omega
  · simp only [intHeader]
    omega

theorem granuleOff_fits (hg : g < granuleCount vals.length) : plan.granuleOff g < 2 ^ 64 := by
  have hoff := granuleOff_le hspec (granule_start_lt hg).le
  simp only [rgRows] at hrows
  omega

end

/-- The image of a plan. -/
def imageOf {vals : List I64} {lo hi : I64} {plan : IntPlan}
    (hspec : PlanSpec lib cc lo vals (granuleCount vals.length) plan) (hrows : vals.length ≤ rgRows) :
    ChunkImage :=
  let ng := granuleCount vals.length
  let hdr := intHeader vals ng lo hi ((List.range ng).map (granuleMinmax vals id)) plan
  { hdr := hdr
    gdir := (List.range ng).map (fun g => GranuleEntry.mk (plan.granuleOff g)
      (granuleMinmax vals id g).1 (granuleMinmax vals id g).2)
    zm := if hdr.flags &&& chunkFlagBlockZm ≠ 0 then
      (List.range (ng * blocksPerGranule)).map (fun i =>
        blockMinmax vals (i / blocksPerGranule) (i % blocksPerGranule)) else []
    bloom := if hdr.flags &&& chunkFlagBloom ≠ 0 then
      (List.range ng).map (fun g => bloomOf (granuleSlice vals g)) else []
    payload := planPayload lo vals plan
    fits := intHeader_fits hspec hrows _
    gdir_length := by simp [hdr, intHeader]
    gdir_fits := by
      intro e he
      obtain ⟨g, hg, rfl⟩ := mem_map.mp he
      exact granuleOff_fits hspec hrows (mem_range.mp hg)
    zm_length := by split <;> simp [hdr, intHeader]
    bloom_length := by split <;> simp [hdr, intHeader]
    bloom_bytes := by
      intro b hb
      split at hb
      · obtain ⟨g, _, rfl⟩ := mem_map.mp hb
        exact bloomOf_length _
      · simp at hb
    payload_length := planPayload_length hspec }

section

variable (hspec : PlanSpec lib cc lo vals (granuleCount vals.length) plan)
include hspec

section

variable (hrows : vals.length ≤ rgRows)
include hrows

theorem imageOf_zmBytes :
    (@imageOf lib cc vals lo hi plan hspec hrows).zmBytes = if (intHeader vals (granuleCount vals.length) lo hi
        ((List.range (granuleCount vals.length)).map (granuleMinmax vals id)) plan).flags &&&
          chunkFlagBlockZm ≠ 0 then blockZmBytes vals (granuleCount vals.length) else [] := by
  simp only [ChunkImage.zmBytes, imageOf]
  split
  · rw [map_map]
    rfl
  · rfl

theorem imageOf_bloomSection :
    (@imageOf lib cc vals lo hi plan hspec hrows).bloomSection = if (intHeader vals (granuleCount vals.length) lo hi
        ((List.range (granuleCount vals.length)).map (granuleMinmax vals id)) plan).flags &&&
          chunkFlagBloom ≠ 0 then bloomSection vals (granuleCount vals.length) else [] := by
  simp only [ChunkImage.bloomSection, imageOf]
  split <;> rfl

theorem imageOf_intImage (hbounds : ∀ v ∈ vals, lo.toInt ≤ v.toInt ∧ v.toInt ≤ hi.toInt) :
    IntImage lib cc vals (lo, hi) (@imageOf lib cc vals lo hi plan hspec hrows) where
  ngranules := rfl
  aux := rfl
  bounds := hbounds
  plan := by
    refine ⟨plan, hspec, rfl, rfl, rfl, rfl, ?_⟩
    intro g hg
    simp [imageOf, getElem?_range hg]
  zm := by
    intro hflag g b hg hb
    have hi : g * blocksPerGranule + b < granuleCount vals.length * blocksPerGranule := by
      have : (g + 1) * blocksPerGranule ≤ granuleCount vals.length * blocksPerGranule := Nat.mul_le_mul_right _ hg
      rw [Nat.add_mul] at this
      omega
    have hdiv : (g * blocksPerGranule + b) / blocksPerGranule = g := by
      rw [Nat.mul_comm, Nat.mul_add_div (by decide), Nat.div_eq_of_lt hb, Nat.add_zero]
    have hmod : (g * blocksPerGranule + b) % blocksPerGranule = b := by
      rw [Nat.mul_comm, Nat.mul_add_mod, Nat.mod_eq_of_lt hb]
    simp only [imageOf] at hflag ⊢
    rw [if_pos hflag, getElem?_map, getElem?_range hi, Option.map_some, hdiv, hmod]
  bloom := by
    intro hflag g hg
    simp only [imageOf] at hflag ⊢
    rw [if_pos hflag, getElem?_map, getElem?_range hg, Option.map_some]

end

end

/-- The encoder succeeds on every row group and appends an image of its rows. -/
theorem encodeIntChunk_image {vals : List I64} {body : List UInt8} (hne : vals ≠ [])
    (hrows : vals.length ≤ rgRows) (hbody : 64 ∣ body.length) :
    ∃ img m, encodeIntChunk lib cc body vals (granuleCount vals.length) =
      some (body ++ img.bytes, m) ∧ IntImage lib cc vals m img := by
  obtain ⟨v, rest, hvals⟩ := exists_cons_of_ne_nil hne
  have hmin : ∀ x ∈ vals, (rest.foldl i64MinOf v).toInt ≤ x.toInt := by
    rw [hvals]
    exact foldl_i64MinOf v rest
  have hmax : ∀ x ∈ vals, x.toInt ≤ (rest.foldl i64MaxOf v).toInt := by
    rw [hvals]
    exact foldl_i64MaxOf v rest
  have hchunk : encodeIntChunk lib cc body vals (granuleCount vals.length) =
      (intChunkBody lib cc body vals (granuleCount vals.length) (rest.foldl i64MinOf v)
        (rest.foldl i64MaxOf v)).map (fun b => (b, (rest.foldl i64MinOf v, rest.foldl i64MaxOf v))) := by
    rw [hvals]
    simp only [Option.map_eq_bind]
    rfl
  generalize rest.foldl i64MinOf v = lo at hmin hchunk
  generalize rest.foldl i64MaxOf v = hi at hmax hchunk
  have hng := le_granuleCount vals.length
  obtain ⟨plan₀, hplan₀, hspec₀, _⟩ := plainPlan_spec hmin hmax hng
  obtain ⟨plan, hplan, hspec, _⟩ := choosePlan_spec hspec₀ hne
  have hdvd : 4 ∣ (body ++ padTo 64 (@imageOf lib cc vals lo hi plan hspec hrows).head).length := by
    rw [length_append, padTo_length (by decide)]
    exact Dvd.dvd.trans (by decide) (Nat.dvd_add hbody (alignTo_dvd 64 _))
  have hpay := intPayload_eq hspec hng hdvd
  refine ⟨imageOf hspec hrows, (lo, hi), ?_, imageOf_intImage hspec hrows (fun x hx => ⟨hmin x hx, hmax x hx⟩)⟩
  have hbytes : intChunkBody lib cc body vals (granuleCount vals.length) lo hi =
      some (body ++ (@imageOf lib cc vals lo hi plan hspec hrows).bytes) := by
    simp only [intChunkBody, hplan₀, hplan, some_bind]
    rw [granuleDir_eq, ← imageOf_zmBytes hspec hrows, ← imageOf_bloomSection hspec hrows,
      ChunkImage.bytes, ← append_assoc, ← ChunkImage.padTo_append hbody]
    rw [← ChunkImage.padTo_append hbody] at hpay
    simp only [append_assoc] at hpay ⊢
    exact hpay
  rw [hchunk, hbytes, Option.map_some]

end Image

section Decode

variable {lib : Compressors} {cc : CodecCtx} {base : I64} {vals : List I64} {plan : IntPlan}

theorem sits_frame (h : frames[g]? = some (comp, raw)) :
    Sits (framesImage frames).flatten (framesLen (frames.take g)) (frameImage raw comp) := by
  obtain ⟨hg, hget⟩ := List.getElem?_eq_some_iff.mp h
  have hlen : g < (framesImage frames).length := by rwa [framesImage, length_map]
  have hsits := sits_flatten hlen
  rw [entryOff_framesImage] at hsits
  simpa only [framesImage, get_eq_getElem, getElem_map, hget] using hsits

theorem frame_length_le (h : frames[g]? = some (comp, raw)) : comp.length ≤ framesLen frames := by
  have hsits := (sits_frame h).length_le
  rw [framesImage_length, frameImage_length] at hsits
  have := le_alignTo (show 0 < 4 by decide) (8 + comp.length)
  simp only [frameLen, align4] at hsits
  omega

/-- The words and bytes of frame `g` of a row of frames at `base`. -/
theorem read_frame_at {p : List UInt8} {base : Nat} (hp : Sits p base (framesImage frames).flatten)
    (h : frames[g]? = some (comp, raw)) (hlen : framesLen frames < 2 ^ 32) (hraw : raw < 2 ^ 32) :
    getU32 p (base + framesLen (frames.take g)) = some raw ∧
      getU32 p (base + framesLen (frames.take g) + 4) = some comp.length ∧
      slice p (base + framesLen (frames.take g) + 8) comp.length = some comp := by
  have hsits := hp.trans (sits_frame h)
  obtain ⟨h₀, h₄, h₈⟩ := sits_frameImage raw comp
  have hcomp := frame_length_le h
  exact ⟨getU32_of_sits (hsits.trans h₀) hraw, getU32_of_sits (hsits.trans h₄) (by omega), (hsits.trans h₈).slice⟩

theorem read_frame (h : frames[g]? = some (comp, raw)) (hlen : framesLen frames < 2 ^ 32) (hraw : raw < 2 ^ 32) :
    getU32 (framesImage frames).flatten (framesLen (frames.take g)) = some raw ∧
      getU32 (framesImage frames).flatten (framesLen (frames.take g) + 4) = some comp.length ∧
      slice (framesImage frames).flatten (framesLen (frames.take g) + 8) comp.length = some comp := by
  have hread := read_frame_at (sits_self _) h hlen hraw
  rwa [Nat.zero_add] at hread

/-- A view of an integer chunk, by the plan it was written under. -/
structure Shows (v : ChunkView) (base : I64) (vals : List I64) (plan : IntPlan) : Prop where
  encoding : v.hdr.encoding = plan.encoding
  width : v.hdr.width = UInt8.ofNat plan.width
  codec : v.hdr.codec = plan.codec
  aux : v.hdr.aux = base
  nrows : v.nrows = vals.length
  payload : v.payload = some (planPayload base vals plan)
  granule : ∀ g, g < granuleCount vals.length → ∃ e, v.granule g = some e ∧ e.payloadOff = plan.granuleOff g

theorem granuleRows_eq (hn : v.nrows = n) (hg : g < granuleCount n) :
    v.granuleRows g = some (min (n - g * granuleRows) granuleRows) := by
  have hlt : ¬ n < g * granuleRows := Nat.not_lt.mpr (granule_start_lt hg).le
  simp [ChunkView.granuleRows, hn, hlt]

theorem frameCodec_eq {h : ChunkHeader} (h₁ : h.encoding ≠ .lz4Text) (h₂ : h.encoding ≠ .lz4Dict) :
    h.frameCodec = h.codec := by
  unfold ChunkHeader.frameCodec
  split
  · exact absurd (by assumption) h₁
  · exact absurd (by assumption) h₂
  · rfl

theorem laned_not_text (h : Laned base vals encoding w) : encoding ≠ .lz4Text ∧ encoding ≠ .lz4Dict := by
  cases h with
  | «for» w hw h => exact ⟨Encoding.noConfusion, Encoding.noConfusion⟩
  | raw => exact ⟨Encoding.noConfusion, Encoding.noConfusion⟩

theorem laned_width (h : Laned base vals encoding w) : (UInt8.ofNat w).toNat = w := by
  have := h.width_le
  rw [UInt8.toNat_ofNat', Nat.mod_eq_of_lt (by omega)]

theorem laneBytes_length {encoding : Encoding} {w g : Nat} (h : Laned base vals encoding w) :
    (laneBytes encoding w base vals g).length = min (vals.length - g * granuleRows) granuleRows * w := by
  rw [laneBytes, h.flatten_length, granuleSlice_length]

theorem laneBytes_lt (h : Laned base vals encoding w) (g : Nat) :
    (laneBytes encoding w base vals g).length < 2 ^ 32 := by
  rw [laneBytes_length h]
  have hle : min (vals.length - g * granuleRows) granuleRows * w ≤ granuleRows * 8 :=
    Nat.mul_le_mul (Nat.min_le_right _ _) h.width_le
  simp only [granuleRows] at hle ⊢
  omega

/-- Plain or compressed, the fixed-width bytes of a granule are its lanes. -/
theorem fixedGranuleBytes_eq (hinv : lib.Inverse)
    (hspec : PlanSpec lib cc base vals (granuleCount vals.length) plan)
    (hs : Shows v base vals plan) (hl : Laned base vals plan.encoding plan.width)
    (hrows : vals.length ≤ rgRows) (hg : g < granuleCount vals.length) (arena : Lz4dec.Mem) :
    ∃ arena', v.fixedGranuleBytes lib g (min (vals.length - g * granuleRows) granuleRows) arena =
      some (laneBytes plan.encoding plan.width base vals g, arena') := by
  have hlen := @laneBytes_length base vals _ _ g hl
  have hstart := (granule_start_lt hg).le
  simp only [rgRows] at hrows
  simp only [ChunkView.fixedGranuleBytes, hs.payload, hs.width, laned_width hl, hs.codec, some_bind]
  cases hspec with
  | const => cases hl
  | plain =>
    rw [planPayload_plain hl, (sits_laneBytes hl hstart).slice_of_length hlen]
    exact ⟨arena, by simp⟩
  | @framed encoding w c comp hl' hc hcomp hsize =>
    obtain ⟨e, he, hoff⟩ := hs.granule g hg
    have hget := framesOf_get comp (laneBytes encoding w base vals) hg
    have hoff' : e.payloadOff = framesLen ((framesOf (granuleCount vals.length) comp
          (laneBytes encoding w base vals)).take g) := by
      rw [hoff]
      simp [IntPlan.granuleOff, hc]
    obtain ⟨hraw, hclen, hslice⟩ := read_frame hget (by omega) (laneBytes_lt hl g)
    have hframe := frame_length_le hget
    have hcodec : v.hdr.frameCodec = c := by
      rw [frameCodec_eq, hs.codec]
      · rw [hs.encoding]
        exact (laned_not_text hl).1
      · rw [hs.encoding]
        exact (laned_not_text hl).2
    obtain ⟨mem, hmem, hbytes⟩ := @decompressFrameInto_compress lib cc hinv c
      (laneBytes encoding w base vals g) (comp g) arena
      ((laneBytes encoding w base vals g).length + Lz4dec.outPad) (hcomp g hg) (by omega)
      (by have := laneBytes_lt hl g; simp only [Lz4dec.outPad] at this ⊢; omega) (le_rfl)
    rw [planPayload_framed (laned_ne hl).1 (.inl hc)]
    simp only [hc, he, Option.bind_some, hoff', hraw, hclen, readFrame, hslice, hcodec,
      Option.bind_eq_bind, ← hlen, hmem, ne_eq]
    rw [memBytes_eq hbytes]
    exact ⟨mem, rfl⟩
  | delta => cases hl

theorem decodeLanes {encoding : Encoding} {w : Nat} (hl : Laned base vals encoding w)
    {rows : List I64} (hrows : ∀ v ∈ rows, v ∈ vals) (hfor : encoding = .for) :
    (rows.map (lane encoding w base)).mapM (fun c => checkedAdd base (i64OfLe c)) = some rows := by
  cases hl with
  | raw => cases hfor
  | «for» w hw h =>
    have hmap : (rows.map (lane .for w base)).mapM (fun c => checkedAdd base (i64OfLe c)) =
        some ((rows.map (lane .for w base)).map (fun c => base + i64OfLe c)) := by
      apply mapM_eq_some
      intro c hc
      obtain ⟨v, hv, rfl⟩ := mem_map.mp hc
      have habove := h v (hrows v hv)
      have hadd := checkedAdd_of_above (by omega) habove
      simp only [lane]
      rw [hadd, i64OfLe_leBytes habove.toNat_lt, add_sub_self]
    rw [hmap, map_map]
    congr 1
    conv_rhs => rw [← map_id rows]
    apply map_congr_left
    intro v hv
    have habove := h v (hrows v hv)
    simp only [Function.comp_apply, lane, id_eq]
    rw [i64OfLe_leBytes habove.toNat_lt, add_sub_self]

theorem decodeGranule_laned (hinv : lib.Inverse) (hspec : PlanSpec lib cc base vals (granuleCount vals.length) plan)
    (hs : Shows v base vals plan) (hl : Laned base vals plan.encoding plan.width)
    (hrows : vals.length ≤ rgRows) (hg : g < granuleCount vals.length) (st : DecodeState) :
    ∃ st', v.decodeGranule lib g st = some ((granuleSlice vals g).map Datum.word, st') := by
  obtain ⟨arena, hbytes⟩ := fixedGranuleBytes_eq hinv hspec hs hl hrows hg st.arena
  have hlanes := hl.lanes_flatten (granuleSlice vals g)
  have henc := hs.encoding
  rw [granuleSlice_length vals g] at hlanes
  rw [laneBytes] at hbytes
  simp only [ChunkView.decodeGranule, granuleRows_eq hs.nrows hg]
  generalize plan.encoding = encoding at hl henc hbytes hlanes
  generalize hw : plan.width = w at hl hbytes hlanes
  cases hl with
  | «for» _ hwidth hab =>
    have hrow := @decodeLanes base vals _ w (.for w hwidth hab) (granuleSlice vals g)
      (fun x hx => mem_granuleSlice hx) rfl
    simp only [henc, ChunkView.decodeFor, hbytes, some_bind, hs.width, hw,
      laned_width (Laned.for w hwidth hab), hwidth, hlanes, hs.aux, hrow]
    exact ⟨_, rfl⟩
  | raw =>
    have hrow : (fun c => Datum.word (i64OfLe c)) ∘ lane .raw 8 base = Datum.word := by
      funext x
      simp [lane, i64OfLe_putI64]
    simp only [henc, ChunkView.decodeRaw, hbytes, some_bind, hlanes, map_map, hrow]
    exact ⟨⟨st.dict, arena⟩, rfl⟩

theorem decodeGranule_const (h : ∀ x ∈ vals, x = base)
    (hs : Shows v base vals ⟨.const, 0, .none, [], 0⟩) (hg : g < granuleCount vals.length)
    (st : DecodeState) :
    ∃ st', v.decodeGranule lib g st = some ((granuleSlice vals g).map Datum.word, st') := by
  have hall : (granuleSlice vals g).map Datum.word =
      List.replicate (min (vals.length - g * granuleRows) granuleRows) (Datum.word base) := by
    rw [eq_replicate_iff]
    constructor
    · rw [length_map, granuleSlice_length]
    · intro d hd
      obtain ⟨x, hx, rfl⟩ := mem_map.mp hd
      rw [h x (mem_granuleSlice hx)]
  simp only [ChunkView.decodeGranule, granuleRows_eq hs.nrows hg, hs.encoding, hs.aux, hall]
  exact ⟨st, rfl⟩

/-- The stored image of a delta granule, compressed or in place. -/
theorem deltaImage_eq (hinv : lib.Inverse)
    (himg : ∀ g, g < granuleCount vals.length → deltaImage (granuleSlice vals g) = some (img g))
    (hstored : ∀ g, g < granuleCount vals.length → stored g = img g ∨
      (cc.compress lib c (img g) = some (stored g) ∧ (stored g).length < (img g).length))
    (hsize : framesLen (framesOf (granuleCount vals.length) stored img) ≤ vals.length * 8)
    (hs : Shows v base vals ⟨.deltaFor, 0, c, framesOf (granuleCount vals.length) stored img,
      framesLen (framesOf (granuleCount vals.length) stored img)⟩) (hrows : vals.length ≤ rgRows)
    (hg : g < granuleCount vals.length) (arena : Lz4dec.Mem) :
    ∃ arena', v.deltaImage lib g arena = some (img g, arena') := by
  simp only [rgRows] at hrows
  obtain ⟨e, he, hoff⟩ := hs.granule g hg
  have hget := framesOf_get stored img hg
  have hoff' : e.payloadOff = framesLen ((framesOf (granuleCount vals.length) stored img).take g) := by
    rw [hoff]
    simp [IntPlan.granuleOff]
  have himglen := deltaImage_length (himg g hg)
  rw [granuleSlice_length] at himglen
  obtain ⟨hraw, hclen, hslice⟩ := read_frame hget (by omega) (by omega)
  simp only [ChunkView.deltaImage, hs.payload, planPayload_framed Encoding.noConfusion (.inr rfl),
    he, hoff', hraw, hclen, some_bind]
  rcases hstored g hg with hsame | ⟨hcomp, hlt⟩
  · rw [hsame] at hslice ⊢
    simp only [hslice]
    exact ⟨_, rfl⟩
  · have hne : ¬ (stored g).length = (img g).length := by omega
    have hcodec : v.hdr.frameCodec = c := by
      rw [frameCodec_eq, hs.codec]
      · rw [hs.encoding]
        exact Encoding.noConfusion
      · rw [hs.encoding]
        exact Encoding.noConfusion
    obtain ⟨mem, hmem, hbytes⟩ := @decompressFrameInto_compress lib cc hinv c (img g) (stored g)
      arena ((img g).length + Lz4dec.outPad) hcomp (by omega)
      (by simp only [Lz4dec.outPad]; omega) (le_rfl)
    simp only [hne, readFrame, hslice, hcodec, Option.bind_eq_bind, Option.bind_some, hmem]
    rw [memBytes_eq hbytes]
    exact ⟨mem, rfl⟩

/-- One granule of an integer chunk decodes to its rows. -/
theorem decodeGranule_eq (hinv : lib.Inverse) (hspec : PlanSpec lib cc base vals (granuleCount vals.length) plan)
    (hs : Shows v base vals plan) (hrows : vals.length ≤ rgRows) (hg : g < granuleCount vals.length)
    (st : DecodeState) :
    ∃ st', v.decodeGranule lib g st = some ((granuleSlice vals g).map Datum.word, st') := by
  have hlaned := fun hl => decodeGranule_laned hinv hspec hs hl hrows hg st
  cases hspec with
  | const h => exact decodeGranule_const h hs hg st
  | plain hl | framed comp hl => exact hlaned hl
  | delta stored img himg hstored hsize =>
    obtain ⟨arena, hdelta⟩ := deltaImage_eq hinv himg hstored hsize hs hrows hg st.arena
    have hrow := deltaRows_deltaImage (himg g hg)
    rw [granuleSlice_length] at hrow
    simp only [ChunkView.decodeGranule, granuleRows_eq hs.nrows hg, some_bind, hs.encoding, ChunkView.decodeDelta, hdelta, hrow]
    exact ⟨_, rfl⟩

/-- Granules whose values decode one by one to the slices of `rows` decode together
to `rows`. -/
theorem decodeFrom_map {β : Type} {v : ChunkView} {f : Datum → β} {rows : List β} {P : DecodeState → Prop}
    (hgran : ∀ g st, g < granuleCount rows.length → P st →
      ∃ ds st', v.decodeGranule lib g st = some (ds, st') ∧ ds.map f = granuleSlice rows g ∧ P st')
    (k g : Nat) (st : DecodeState) (hk : g + k = granuleCount rows.length) (hst : P st) :
    ∃ ds, v.decodeFrom lib k g st = some ds ∧ ds.map f = rows.drop (g * granuleRows) := by
  induction k generalizing g st with
  | zero =>
    have hle := le_granuleCount rows.length
    rw [← hk, Nat.add_zero] at hle
    exact ⟨[], rfl, by rw [map_nil, drop_eq_nil_of_le hle]⟩
  | succ k ih =>
    obtain ⟨ds, st', hdec, hds, hst'⟩ := hgran g st (by omega) hst
    obtain ⟨rest, hrest, hmap⟩ := ih (g + 1) st' (by omega) hst'
    refine ⟨ds ++ rest, ?_, ?_⟩
    · simp [ChunkView.decodeFrom, hdec, hrest]
    · rw [map_append, hds, hmap, drop_granule rows g]

theorem shows_view (himg : IntImage lib cc vals m img) (hsits : Sits part b img.bytes) :
    ∃ plan, PlanSpec lib cc m.1 vals (granuleCount vals.length) plan ∧
      Shows (img.view part b vals.length) m.1 vals plan := by
  obtain ⟨plan, hspec, henc, hwidth, hcodec, hpay, hdir⟩ := himg.plan
  refine ⟨plan, hspec, henc, hwidth, hcodec, himg.aux, rfl, ?_, ?_⟩
  · rw [← hpay]
    exact ChunkImage.view_payload hsits _
  · intro g hg
    exact ⟨_, ChunkImage.view_granule hsits _ g (hdir g hg), rfl⟩

/-- A view of an integer image decodes to the rows of the image. -/
theorem decodeAll_view (hinv : lib.Inverse) (himg : IntImage lib cc vals m img) (hrows : vals.length ≤ rgRows)
    (hsits : Sits part b img.bytes) (st : DecodeState) :
    (img.view part b vals.length).decodeAll lib st = some (vals.map Datum.word) := by
  obtain ⟨plan, hspec, hs⟩ := shows_view himg hsits
  have hlen : (vals.map Datum.word).length = vals.length := length_map _
  have hgran : ∀ g st, g < granuleCount (vals.map Datum.word).length → True →
      ∃ ds st', (img.view part b vals.length).decodeGranule lib g st = some (ds, st') ∧
        ds.map id = granuleSlice (vals.map Datum.word) g ∧ True := by
    intro g st hg _
    rw [hlen] at hg
    obtain ⟨st', hst'⟩ := decodeGranule_eq hinv hspec hs hrows hg st
    exact ⟨_, st', hst', by rw [map_id, granuleSlice_map], trivial⟩
  obtain ⟨ds, hdec, hds⟩ :=
    decodeFrom_map hgran (granuleCount vals.length) 0 st (by rw [hlen, Nat.zero_add]) trivial
  rw [Nat.zero_mul, drop_zero, map_id] at hds
  have hng : (img.view part b vals.length).hdr.ngranules = granuleCount vals.length := himg.ngranules
  rw [ChunkView.decodeAll, hng, hdec, hds]

end Decode

/-- `encode_int_chunk` never panics on a row group, and whatever encoding and codec it
picks, the chunk opened with `ChunkView::at` decodes granule by granule to the same rows. -/
theorem encodeIntChunk_roundTrip (lib : Compressors) (hinv : lib.Inverse) (cc : CodecCtx)
    (body rest : List UInt8) (vals : List I64) (st : DecodeState) (hne : vals ≠ [])
    (hrows : vals.length ≤ rgRows) (hbody : 64 ∣ body.length) :
    ∃ body' m v, encodeIntChunk lib cc body vals (granuleCount vals.length) = some (body', m) ∧
      ChunkView.at (body' ++ rest) body.length vals.length = some v ∧
      v.decodeAll lib st = some (vals.map Datum.word) := by
  obtain ⟨img, m, henc, himg⟩ := encodeIntChunk_image hne hrows hbody
  have hsits : Sits (body ++ img.bytes ++ rest) body.length img.bytes := sits_middle body img.bytes rest
  exact ⟨_, m, _, henc, ChunkImage.at_eq_view hsits hbody _, decodeAll_view hinv himg hrows hsits st⟩

theorem encodeIntChunk_roundTrip_extremes :
    ∃ body' m v, encodeIntChunk storing ⟨.auto, 3, true, true, 65536⟩ [] [i64Min, i64Max] 1 = some (body', m) ∧
      ChunkView.at (body' ++ []) 0 2 = some v ∧
      v.decodeAll storing ⟨[], fun _ => 0⟩ = some [Datum.word i64Min, Datum.word i64Max] :=
  encodeIntChunk_roundTrip storing storing_inverse _ [] [] [i64Min, i64Max] _ (by decide) (by decide) (by decide)

end ColumnarIntRoundTrip
