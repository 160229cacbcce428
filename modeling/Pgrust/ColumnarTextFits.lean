import Pgrust.ColumnarDictLazy

/-!
# When a text chunk round-trips

The writer narrows blob lengths to `u32` without a check and adds blob offsets as
checked `u32` sums. A text column of a row group comes back exactly when its strings
together and the images its layout addresses stay below `2 ^ 32` bytes.
-/
namespace ColumnarTextFits

open ByteImage ColumnarFormat ColumnarCodec ColumnarIntChunk ColumnarChunkView ColumnarChunkImage List
open ColumnarIntPlan ColumnarIntRoundTrip ColumnarAppend ColumnarTextChunk ColumnarTextLayout
open ColumnarDictBlob ColumnarTextRoundTrip ColumnarDictLazy

section Plans

variable {lib : Compressors} {cc : CodecCtx} {strings : List (List UInt8)}

theorem granuleCount_le (hrows : strings.length ≤ rgRows) : granuleCount strings.length ≤ 8 := by
  simp only [granuleCount, granuleRows, rgRows] at hrows ⊢
  omega

theorem rawText_announced (hs : Sized strings) (hrows : strings.length ≤ rgRows)
    (hlen : imagesLen strings < 2 ^ 32) :
    ∃ plan, rawTextPlan strings = some plan ∧ Announced plan (granuleCount strings.length) := by
  have hoffs := @offTable_eq strings hs 0 (by decide)
  rw [Nat.zero_add, if_pos hlen] at hoffs
  have hng := granuleCount_le hrows
  simp only [rgRows] at hrows
  simp only [rawTextPlan, hoffs, foldl_images]
  refine ⟨_, rfl, ?_, ?_, .inl rfl, ?_⟩
  · rw [length_append, flatten_map_length putU32_length, imageOffs_length, images_length]
  · change strings.length * 4 + imagesLen strings < 2 ^ 64
    omega
  · simp only [granuleRows]
    omega

theorem rawTextPlan_none (hs : Sized strings) (hbig : ¬ imagesLen strings < 2 ^ 32) :
    rawTextPlan strings = none := by
  have hoffs := @offTable_eq strings hs 0 (by decide)
  rw [Nat.zero_add, if_neg hbig] at hoffs
  simp [rawTextPlan, hoffs]

section Choice

variable (hdict : ¬ useDict strings = true)

include hdict

theorem textPlan_raw (hnone : compressedText lib cc strings ng = some none) :
    textPlan lib cc strings ng = rawTextPlan strings := by
  simp only [textPlan, hdict, hnone]
  rfl

theorem textPlan_lz4 (hsome : compressedText lib cc strings ng = some (some (c, frames))) :
    textPlan lib cc strings ng = some (lz4TextPlan strings ng c frames) := by
  simp only [textPlan, hdict, hsome]
  rfl

end Choice

theorem rawText_encoding (h : rawTextPlan strings = some plan) : plan.encoding = .rawText := by
  simp only [rawTextPlan, Option.bind_eq_bind, Option.bind_eq_some_iff] at h
  obtain ⟨offs, -, h⟩ := h
  cases h
  rfl

theorem lz4Text_announced (h : CompressedText lib cc strings c frames) (hrows : strings.length ≤ rgRows)
    (htotal : strings.flatten.length < 2 ^ 32) :
    Announced (lz4TextPlan strings (granuleCount strings.length) c frames) (granuleCount strings.length) := by
  have hlen := h.framesLen_lt hrows htotal
  simp only [rgRows] at hrows
  refine ⟨?_, ?_, .inl rfl, ?_⟩
  · change (_ ++ (framesImage frames).flatten).length = _
    rw [length_append, flatten_map_length putU32_length, blocks_length (fun i => relOffs_length 0 _), framesImage_length]
    rfl
  · change strings.length * 4 + framesLen frames < 2 ^ 64
    omega
  · intro g _
    have hle := framesLen_take_le frames g
    change strings.length * 4 + framesLen (frames.take g) < 2 ^ 64
    omega

theorem stored_len_lt (hspec : StoredSpec lib cc order stored) (hlen : imagesLen order < 2 ^ 32) :
    stored.len < 2 ^ 40 := by
  cases hspec with
  | plain => exact hlen.trans (by decide)
  | @single c comp pad hc hcomp hshort =>
    have := @alignTo_lt 4 (by decide) (8 + comp.length)
    simp only [frameLen, align4]
    omega
  | @framed c groups fs pad hc hgroups hne hraws hall =>
    rw [← images_length] at hlen
    have hcount := length_lt_of_groups hgroups hne hraws hlen
    have hblob := images_groups hraws
    rw [hgroups] at hblob
    have hraw := sum_raw hblob
    have hsum := sum_stored_le hall
    have hpad := @alignTo_lt 4 (by decide) (4 + 8 * (framesOfPairs fs).length +
      ((framesOfPairs fs).map (fun f => f.2.length)).sum)
    have hcnt : (framesOfPairs fs).length = fs.length := by rw [framesOfPairs, length_map]
    have hst : ((framesOfPairs fs).map (fun f => f.2.length)).sum = (fs.map (fun f => f.2.length)).sum := by
      rw [framesOfPairs, map_map]
      rfl
    simp only [framedLen, align4]
    omega

theorem dict_announced (hrows : strings.length ≤ rgRows)
    (hspec : StoredSpec lib cc (sortedDict (dictPass strings).order) stored)
    (hfit : imagesLen (dictPass strings).order < 2 ^ 32) (hbytes : stored.bytes.length = stored.len) :
    Announced (dictLayout strings stored) (granuleCount strings.length) := by
  have hng := granuleCount_le hrows
  rw [← imagesLen_sorted] at hfit
  have hlen := stored_len_lt hspec hfit
  have hndv := length_le_imagesLen (sortedDict (dictPass strings).order)
  obtain ⟨hpad, htab⟩ := dictLayout_head strings
  have hw : codeW (dictPass strings).order.length ≤ 4 := by
    rcases codeW_cases (dictPass strings).order.length with h | h | h <;> omega
  have hcodes : strings.length * codeW (dictPass strings).order.length ≤ 65536 * 4 := Nat.mul_le_mul hrows hw
  have halign := @alignTo_lt 4 (by decide) (strings.length * codeW (dictPass strings).order.length)
  refine ⟨?_, ?_, ?_, ?_⟩
  · change (_ ++ _ ++ stored.bytes).length = _
    rw [length_append, length_append, hpad, htab, hbytes]
    rfl
  · change align4 _ + _ * 4 + stored.len < 2 ^ 64
    simp only [align4]
    omega
  · change (_ ||| if stored.framed = true then _ else _) = 0 ∨ (_ ||| if stored.framed = true then _ else _) = 4 ∨
      (_ ||| if stored.framed = true then _ else _) = 12
    cases stored.framed with
    | true => exact .inr (.inr rfl)
    | false => exact .inr (.inl rfl)
  · intro g hg
    change g * granuleRows * codeW _ < 2 ^ 64
    have : g * granuleRows * codeW (dictPass strings).order.length ≤ 8 * granuleRows * 4 :=
      Nat.mul_le_mul (Nat.mul_le_mul_right _ (by omega)) hw
    simp only [granuleRows] at this ⊢
    omega

end Plans

/-- The `u32` bounds of the layout the encoder picks: all strings together, and the
images of the distinct strings, of each granule or of all rows. -/
def TextFits (lib : Compressors) (cc : CodecCtx) (strings : List (List UInt8)) : Prop :=
  strings.flatten.length < 2 ^ 32 ∧ if useDict strings then imagesLen (dictPass strings).order < 2 ^ 32 else
      match compressedText lib cc strings (granuleCount strings.length) with
      | some (some _) => ∀ g, g < granuleCount strings.length → imagesLen (granuleSlice strings g) < 2 ^ 32
      | _ => imagesLen strings < 2 ^ 32

/-- The chunk a builder is encoded to, opened where it was written, gives `strings` back
both through the pointers of `decode_granule` and through the codes of
`decode_granule_codes`. -/
def TextRoundTrips (lib : Compressors) (cc : CodecCtx) (tb : TextBuilder)
    (strings : List (List UInt8)) (capture lazyRead : Bool) (body rest : List UInt8)
    (arena : Lz4dec.Mem) : Prop :=
  ∃ body' mm dict v, encodeTextChunk lib cc body tb (granuleCount strings.length) capture = some (body', mm, dict) ∧
    ChunkView.at (body' ++ rest) body.length strings.length = some v ∧
    (∃ ds, v.decodeAll lib ⟨[], arena⟩ = some ds ∧ ds.map varlenaBytes = strings.map .ok) ∧
    readAll lib v lazyRead arena = some (strings.map .ok)

section RoundTrip

variable {lib : Compressors} {cc : CodecCtx} {strings : List (List UInt8)} {capture lazyRead : Bool}
  {body rest : List UInt8} {arena : Lz4dec.Mem} {plan : TextPlan}

theorem encodeTextChunk_image (hs : Sized strings) (htotal : strings.flatten.length < 2 ^ 32)
    (hng : granuleCount strings.length < 2 ^ 32)
    (hplan : textPlan lib cc strings (granuleCount strings.length) = some plan)
    (ha : Announced plan (granuleCount strings.length)) (hbody : 64 ∣ body.length) :
    ∃ mm dict, encodeTextChunk lib cc body (TextBuilder.of strings) (granuleCount strings.length) capture =
      some (body ++ (textImage plan (lengthMinmax strings) ha hng).bytes, mm, dict) := by
  have hstr := strings_of_builder hs
  rw [if_pos htotal] at hstr
  have hhead : (textImage plan (lengthMinmax strings) ha hng).head =
      (plan.header (granuleCount strings.length)).encode ++
        granuleDir ((List.range (granuleCount strings.length)).map (lengthMinmax strings)) plan.granuleOff := by
    rw [granuleDir_eq]
    simp [ChunkImage.head, textImage, ChunkImage.gdirBytes, ChunkImage.zmBytes, ChunkImage.bloomSection]
  simp only [encodeTextChunk, hstr, hplan, some_bind, append_assoc, ChunkImage.padTo_append hbody, ← hhead]
  exact ⟨_, _, rfl⟩

/-- A panic of the encoder is no round trip. -/
theorem not_roundTrips_of_panic (h : encodeTextChunk lib cc body tb (granuleCount strings.length) capture = none) :
    ¬ TextRoundTrips lib cc tb strings capture lazyRead body rest arena := by
  rintro ⟨body', mm, dict, v, henc, -⟩
  rw [h] at henc
  cases henc

theorem encode_of_total (hs : Sized strings) (htotal : ¬ strings.flatten.length < 2 ^ 32) :
    encodeTextChunk lib cc body (TextBuilder.of strings) (granuleCount strings.length) capture = none := by
  have hstr := strings_of_builder hs
  rw [if_neg htotal] at hstr
  simp [encodeTextChunk, hstr]

theorem encode_of_planNone (hs : Sized strings) (h : textPlan lib cc strings (granuleCount strings.length) = none) :
    encodeTextChunk lib cc body (TextBuilder.of strings) (granuleCount strings.length) capture = none := by
  by_cases htotal : strings.flatten.length < 2 ^ 32
  · have hstr := strings_of_builder hs
    rw [if_pos htotal] at hstr
    simp [encodeTextChunk, hstr, h]
  · exact encode_of_total hs htotal

section View

variable (hs : Sized strings) (htotal : strings.flatten.length < 2 ^ 32)
  (hng : granuleCount strings.length < 2 ^ 32)
  (hplan : textPlan lib cc strings (granuleCount strings.length) = some plan)
  (ha : Announced plan (granuleCount strings.length)) (hbody : 64 ∣ body.length)

include hs htotal hng hplan ha hbody

/-- A chunk whose plan announces itself is written, and opening it shows the plan. -/
theorem encode_shows : ∃ body' mm dict v,
    encodeTextChunk lib cc body (TextBuilder.of strings) (granuleCount strings.length) capture =
      some (body', mm, dict) ∧
    ChunkView.at (body' ++ rest) body.length strings.length = some v ∧
    ShowsText v plan strings.length := by
  obtain ⟨mm, dict, henc⟩ := encodeTextChunk_image hs htotal hng hplan ha hbody
  have hsits := sits_middle body (textImage plan (lengthMinmax strings) ha hng).bytes rest
  exact ⟨_, mm, dict, _, henc, ChunkImage.at_eq_view hsits hbody strings.length, showsText_view ha hng hsits⟩

/-- With a plan in hand, a round trip is what the view of its image gives. -/
theorem roundTrips_iff_view : ∃ v, ShowsText v plan strings.length ∧
      (TextRoundTrips lib cc (TextBuilder.of strings) strings capture lazyRead body rest arena ↔
        (∃ ds, v.decodeAll lib ⟨[], arena⟩ = some ds ∧ ds.map varlenaBytes = strings.map .ok) ∧
        readAll lib v lazyRead arena = some (strings.map .ok)) := by
  obtain ⟨body', mm, dict, v, henc, hat, hv⟩ := encode_shows hs htotal hng hplan ha hbody
  refine ⟨v, hv, ?_, ?_⟩
  · rintro ⟨body', mm', dict', v, henc', hat', hdec, hread⟩
    rw [henc] at henc'
    cases henc'
    rw [hat] at hat'
    cases hat'
    exact ⟨hdec, hread⟩
  · rintro ⟨hdec, hread⟩
    exact ⟨_, mm, dict, _, henc, hat, hdec, hread⟩

end View

theorem decodeAll_of_granules {v : ChunkView} (hv : ShowsText v plan strings.length)
    {P : DecodeState → Prop} (hP : P ⟨[], arena⟩)
    (hgran : ∀ g st, g < granuleCount strings.length → P st → ∃ ds st', v.decodeGranule lib g st = some (ds, st') ∧
        ds.map varlenaBytes = (granuleSlice strings g).map .ok ∧ P st') :
    ∃ ds, v.decodeAll lib ⟨[], arena⟩ = some ds ∧ ds.map varlenaBytes = strings.map .ok := by
  have hlen : (strings.map (Except.ok : _ → Run (List UInt8))).length = strings.length := length_map _
  obtain ⟨ds, hdec, hds⟩ := @decodeFrom_map lib _ v varlenaBytes (strings.map .ok) P (by
      intro g st hg hst
      rw [hlen] at hg
      obtain ⟨ds, st', hdec, hds, hst'⟩ := hgran g st hg hst
      exact ⟨ds, st', hdec, by rw [hds, granuleSlice_map], hst'⟩)
    (granuleCount strings.length) 0 ⟨[], arena⟩ (by rw [hlen, Nat.zero_add]) hP
  exact ⟨ds, by rw [ChunkView.decodeAll, hv.ngranules]; exact hdec, hds⟩

theorem readAll_of_granules {v : ChunkView} (hv : ShowsText v plan strings.length)
    {P : DictTable → Prop} (hP : P .empty)
    (hgran : ∀ g t arena, g < granuleCount strings.length → P t → ∃ t' arena',
      readGranule lib v lazyRead g t arena = some ((granuleSlice strings g).map .ok, t', arena') ∧ P t') :
    readAll lib v lazyRead arena = some (strings.map .ok) := by
  have h := readFrom_eq hgran (granuleCount strings.length) 0 .empty arena (Nat.zero_add _) hP
  rw [readAll, hv.ngranules]
  exact h

/-- A layout without a dictionary whose granules decode to their strings round-trips. -/
theorem reads_of_pointers {v : ChunkView} (hv : ShowsText v plan strings.length) (henc : v.isDict = false)
    (hgran : ∀ g st, g < granuleCount strings.length → ∃ ds st', v.decodeGranule lib g st = some (ds, st') ∧
      ds.map varlenaBytes = (granuleSlice strings g).map .ok) :
    (∃ ds, v.decodeAll lib ⟨[], arena⟩ = some ds ∧ ds.map varlenaBytes = strings.map .ok) ∧
      readAll lib v lazyRead arena = some (strings.map .ok) := by
  constructor
  · apply decodeAll_of_granules hv (P := fun _ => True) trivial
    intro g st hg _
    obtain ⟨ds, st', hdec, hds⟩ := hgran g st hg
    exact ⟨ds, st', hdec, hds, trivial⟩
  · apply readAll_of_granules hv (P := fun _ => True) trivial
    intro g t arena hg _
    obtain ⟨ds, st', hdec, hds⟩ := hgran g ⟨[], arena⟩ hg
    exact ⟨t, st'.arena, by rw [readGranule_pointers henc, hdec, Option.map_some, hds], trivial⟩

variable (hinv : lib.Inverse) (hs : Sized strings) (hrows : strings.length ≤ rgRows)
  (hbody : 64 ∣ body.length)

include hinv hs hrows hbody

theorem dict_roundTrips (htotal : strings.flatten.length < 2 ^ 32) (hdict : useDict strings = true)
    (hfit : imagesLen (dictPass strings).order < 2 ^ 32) :
    TextRoundTrips lib cc (TextBuilder.of strings) strings capture lazyRead body rest arena := by
  obtain ⟨stored, hspec, hbytes, hplan⟩ := (dictPlan_eq hs).1 hfit
  have hng := granuleCount_le hrows
  have htext : textPlan lib cc strings (granuleCount strings.length) = some (dictLayout strings stored) := by
    rw [textPlan, if_pos hdict, hplan]
  obtain ⟨v, hv, hiff⟩ := roundTrips_iff_view hs htotal (by omega) htext
    (dict_announced hrows hspec hfit hbytes) hbody
  have hshown : DictShown lib cc strings stored v := ⟨hinv, hs, hdict, hspec, by rwa [imagesLen_sorted], hv⟩
  apply hiff.mpr
  constructor
  · apply decodeAll_of_granules hv (P := DictReady (sortedDict (dictPass strings).order)) (.inl rfl)
    intro g st hg hst
    exact dict_decodes hshown hg st hst
  · apply readAll_of_granules hv
      (P := fun t => t = .empty ∨ TableReady lib cc (sortedDict (dictPass strings).order) t) (.inl rfl)
    intro g t arena hg ht
    exact readGranule_dict hshown lazyRead hg arena ht

omit hinv in
theorem rawText_roundTrips (htotal : strings.flatten.length < 2 ^ 32) (hdict : ¬ useDict strings = true)
    (hnone : compressedText lib cc strings (granuleCount strings.length) = some none)
    (hlen : imagesLen strings < 2 ^ 32) :
    TextRoundTrips lib cc (TextBuilder.of strings) strings capture lazyRead body rest arena := by
  obtain ⟨plan, hplan, ha⟩ := rawText_announced hs hrows hlen
  have hng := granuleCount_le hrows
  obtain ⟨v, hv, hiff⟩ := roundTrips_iff_view hs htotal (by omega) ((textPlan_raw hdict hnone).trans hplan) ha hbody
  have henc : v.isDict = false := by
    rw [ChunkView.isDict, hv.encoding, rawText_encoding hplan]
    rfl
  apply hiff.mpr
  apply reads_of_pointers hv henc
  intro g st hg
  obtain ⟨ds, hdec, hds⟩ := rawText_decodes hs hlen hplan hv hg st
  exact ⟨ds, st, hdec, hds⟩

theorem lz4Text_roundTrips_iff (htotal : strings.flatten.length < 2 ^ 32) (hdict : ¬ useDict strings = true)
    (hsome : compressedText lib cc strings (granuleCount strings.length) = some (some (c, frames)))
    (h : CompressedText lib cc strings c frames) :
    TextRoundTrips lib cc (TextBuilder.of strings) strings capture lazyRead body rest arena ↔
      ∀ g, g < granuleCount strings.length → imagesLen (granuleSlice strings g) < 2 ^ 32 := by
  have hng := granuleCount_le hrows
  obtain ⟨v, hv, hiff⟩ := roundTrips_iff_view hs htotal (by omega) (textPlan_lz4 hdict hsome)
    (lz4Text_announced h hrows htotal) hbody
  have hshown : ∀ g, g < granuleCount strings.length → TextShown lib cc strings c frames v g :=
    fun g hg => ⟨h, hinv, hrows, htotal, hv, hg⟩
  rw [hiff]
  constructor
  · rintro ⟨⟨ds, hdec, -⟩, -⟩ g hg
    by_contra hbig
    have hnone := decodeFrom_none (lz4Text_fails (hshown g hg) (Nat.le_of_not_lt hbig))
      (granuleCount strings.length) 0 ⟨[], arena⟩ (Nat.zero_le g) (by omega)
    rw [ChunkView.decodeAll, hv.ngranules, hnone] at hdec
    cases hdec
  · intro hfit
    have henc : v.isDict = false := by
      rw [ChunkView.isDict, hv.encoding]
      rfl
    apply reads_of_pointers hv henc
    intro g st hg
    obtain ⟨ds, st', hdec, hds, -⟩ := lz4Text_decodes hs (hshown g hg) (hfit g hg) st
    exact ⟨ds, st', hdec, hds⟩

/-- The strings of a builder come back exactly when they fit. -/
theorem roundTrips_iff_fits :
    TextRoundTrips lib cc (TextBuilder.of strings) strings capture lazyRead body rest arena ↔
      TextFits lib cc strings := by
  by_cases htotal : strings.flatten.length < 2 ^ 32
  · by_cases hdict : useDict strings = true
    · simp only [TextFits, htotal, true_and, hdict]
      constructor
      · intro hrt
        by_contra hbig
        refine not_roundTrips_of_panic (encode_of_planNone hs ?_) hrt
        rw [textPlan, if_pos hdict]
        exact (dictPlan_eq hs).2 (Nat.le_of_not_lt hbig)
      · intro hfit
        exact dict_roundTrips hinv hs hrows hbody htotal hdict hfit
    · rcases @compressedText_cases lib cc strings with hnone | ⟨c, frames, hsome, h⟩
      · simp only [TextFits, htotal, true_and, hdict, hnone]
        constructor
        · intro hrt
          by_contra hbig
          refine not_roundTrips_of_panic (encode_of_planNone hs ?_) hrt
          rw [textPlan_raw hdict hnone, rawTextPlan_none hs hbig]
        · intro hlen
          exact rawText_roundTrips hs hrows hbody htotal hdict hnone hlen
      · simp only [TextFits, htotal, true_and, hdict, hsome]
        exact lz4Text_roundTrips_iff hinv hs hrows hbody htotal hdict hsome h
  · exact ⟨fun hrt => absurd hrt (not_roundTrips_of_panic (encode_of_total hs htotal)),
      fun hfit => absurd hfit.1 htotal⟩

end RoundTrip

/-- A row of one stored image. -/
def imageRow (s : List UInt8) : Row := ⟨[.ptr (varlenaImage s)], [false]⟩

theorem appendRows_images {hashBytes : List UInt8 → BitVec 64} {strings : List (List UInt8)}
    (hs : Sized strings) {hasPrev : Bool} {col : ColState} {tb : TextBuilder}
    (hb : col.builder = .text tb) :
    ∃ col', appendRows hashBytes [.text] hasPrev [col] (strings.map imageRow) = .ok [col'] ∧
      col'.builder = .text (strings.foldl .push tb) := by
  induction strings generalizing hasPrev col tb with
  | nil => exact ⟨col, rfl, hb⟩
  | cons s strings ih =>
    have hbytes := varlenaBytes_image (hs s (by simp)) []
    rw [append_nil] at hbytes
    have hcol : appendColumn hashBytes .text hasPrev col (.ptr (varlenaImage s)) false =
        .ok (col.addText hashBytes tb hasPrev s) := by
      simp [appendColumn, hb, hbytes]
    obtain ⟨col', happ, hb'⟩ := @ih (forall_mem_cons.mp hs).2 true
      (col.addText hashBytes tb hasPrev s) (tb.push s) rfl
    refine ⟨col', ?_, hb'⟩
    simp only [map_cons, appendRows, imageRow, appendRowInto, hcol]
    exact happ

/-- Whatever else the table holds, a text column of one row group that `append_row_into`
took in gives its strings back exactly when they fit the `u32` ranges of its layout. -/
theorem textColumn_roundTrips_iff (lib : Compressors) (hinv : lib.Inverse) (cc : CodecCtx)
    (hashBytes : List UInt8 → BitVec 64) (ts : List ColType) (hasPrev : Bool)
    (cols cols' : List ColState) (rows : List Row) (c : Nat) (t : ColType) (col : ColState)
    (strings : List (List UInt8)) (capture lazyRead : Bool) (body rest : List UInt8)
    (arena : Lz4dec.Mem) (happend : appendRows hashBytes ts hasPrev cols rows = .ok cols')
    (ht : ts[c]? = some t) (hcol : cols[c]? = some col) (hempty : col.builder = .text .empty)
    (hstrings : rows.map (fun r => r.values[c]?.map varlenaBytes) = strings.map (fun s => some (.ok s)))
    (hrows : strings.length ≤ rgRows) (hbody : 64 ∣ body.length) :
    ∃ col' tb, cols'[c]? = some col' ∧ col'.builder = .text tb ∧
      (TextRoundTrips lib cc tb strings capture lazyRead body rest arena ↔ TextFits lib cc strings) := by
  obtain ⟨col', hcol', hb⟩ := appendRows_text happend ht hcol hempty hstrings
  have hsized : Sized strings := by
    intro s hs
    have hmem : some (.ok s) ∈ rows.map (fun r => r.values[c]?.map varlenaBytes) := by
      rw [hstrings]
      exact mem_map_of_mem hs
    obtain ⟨r, -, hr⟩ := mem_map.mp hmem
    obtain ⟨d, -, hd⟩ := Option.map_eq_some_iff.mp hr
    exact varlenaBytes_length hd
  exact ⟨col', _, hcol', hb, roundTrips_iff_fits hinv hsized hrows hbody⟩

theorem textColumn_roundTrips_iff_two : ∃ (col' : ColState) (tb : TextBuilder), col'.builder = .text tb ∧
      (TextRoundTrips storing ⟨.auto, 3, true, true, 131072⟩ tb [[0x61], [0x62]] false true [] []
        (fun _ => 0) ↔ TextFits storing ⟨.auto, 3, true, true, 131072⟩ [[0x61], [0x62]]) := by
  obtain ⟨col, happ, -⟩ := @appendRows_images (fun _ => 0) [[0x61], [0x62]] (by simp [Sized]) false
    ⟨.text .empty, none, none, 0, []⟩ .empty rfl
  obtain ⟨col', tb, -, hb, hiff⟩ := textColumn_roundTrips_iff storing storing_inverse
    ⟨.auto, 3, true, true, 131072⟩ (fun _ => 0) [.text] false [⟨.text .empty, none, none, 0, []⟩] [col]
    ([[0x61], [0x62]].map imageRow) 0 .text ⟨.text .empty, none, none, 0, []⟩ [[0x61], [0x62]] false true
    [] [] (fun _ => 0) happ rfl rfl rfl (by decide) (by decide) (by decide)
  exact ⟨col', tb, hb, hiff⟩

/-- Five strings of the largest varlena size, a little under five gibibytes together. -/
def overStrings : List (List UInt8) := List.replicate 5 (List.replicate (2 ^ 30 - 5) 0)

theorem replicate_total (k n : Nat) : (List.replicate k (List.replicate n (0 : UInt8))).flatten.length = k * n := by
  rw [length_flatten, map_replicate, length_replicate, sum_replicate, smul_eq_mul]

/-- Nothing bounds the text bytes of a row group, and past `2 ^ 32` of them the row group
cannot be encoded. -/
theorem textColumn_over_limit_lost :
    ∃ col tb, appendRows (fun _ => 0) [.text] false [⟨.text .empty, none, none, 0, []⟩]
        (overStrings.map imageRow) = .ok [col] ∧ col.builder = .text tb ∧
      ¬ TextRoundTrips storing ⟨.auto, 3, true, true, 131072⟩ tb overStrings false true [] [] (fun _ => 0) := by
  have hsized : Sized overStrings := by
    intro s hs
    rw [(mem_replicate.mp hs).2, length_replicate]
    decide
  have hrows : overStrings.length ≤ rgRows := by
    decide
  obtain ⟨col, happ, hb⟩ := @appendRows_images (fun _ => 0) overStrings hsized false
    ⟨.text .empty, none, none, 0, []⟩ .empty rfl
  refine ⟨col, _, happ, hb, ?_⟩
  intro hrt
  have hfits := (roundTrips_iff_fits storing_inverse hsized hrows ⟨0, rfl⟩).mp hrt
  have htotal := hfits.1
  rw [overStrings, replicate_total] at htotal
  omega

end ColumnarTextFits
