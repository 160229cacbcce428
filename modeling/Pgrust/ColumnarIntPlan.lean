import Pgrust.ColumnarIntLanes

/-!
# What the integer encoder decides

Whatever arm the encoder takes, its plan is one of four: a constant, plain lanes,
compressed lanes, or delta frames, and its payload is never larger than eight bytes
a row.
-/
namespace ColumnarIntPlan

open ByteImage ColumnarFormat ColumnarCodec ColumnarIntChunk ColumnarChunkView ColumnarIntLanes List

/-- The granules of a row group. -/
def granuleCount (n : Nat) : Nat := (n + (granuleRows - 1)) / granuleRows

variable {g ng w : Nat} {encoding : Encoding}

section Granules

variable {α : Type} (xs : List α)

theorem granuleSlice_length (g : Nat) :
    (granuleSlice xs g).length = min (xs.length - g * granuleRows) granuleRows := by
  simp only [granuleSlice, length_take, length_drop]
  omega

theorem granule_start_lt (h : g < granuleCount n) : g * granuleRows < n := by
  simp only [granuleCount, granuleRows] at *
  omega

theorem le_granuleCount (n : Nat) : n ≤ granuleCount n * granuleRows := by
  simp only [granuleCount, granuleRows] at *
  omega

theorem granuleSlice_ne_nil (h : g < granuleCount xs.length) : granuleSlice xs g ≠ [] := by
  intro hnil
  have hlen := granuleSlice_length xs g
  have hstart := granule_start_lt h
  have hrows : 0 < granuleRows := by decide
  rw [hnil, length_nil] at hlen
  omega

theorem drop_granule (g : Nat) :
    xs.drop (g * granuleRows) = granuleSlice xs g ++ xs.drop ((g + 1) * granuleRows) := by
  rw [granuleSlice, Nat.add_mul, Nat.one_mul, ← drop_drop, take_append_drop]

theorem flatten_granules_from (k g : Nat) (h : xs.length ≤ (g + k) * granuleRows) :
    ((List.range' g k).map (granuleSlice xs)).flatten = xs.drop (g * granuleRows) := by
  induction k generalizing g with
  | zero =>
    rw [Nat.add_zero] at h
    simp [drop_eq_nil_of_le h]
  | succ k ih =>
    have hnext : xs.length ≤ (g + 1 + k) * granuleRows := by rwa [Nat.add_right_comm]
    rw [range'_succ, map_cons, flatten_cons, ih (g + 1) hnext, ← drop_granule]

/-- The granules of a row group are its rows, in order. -/
theorem flatten_granules (h : xs.length ≤ ng * granuleRows) :
    ((List.range ng).map (granuleSlice xs)).flatten = xs := by
  have := flatten_granules_from xs ng 0 (by rwa [Nat.zero_add])
  rwa [← range_eq_range'] at this

theorem granuleSlice_map {β : Type} (f : α → β) (g : Nat) :
    granuleSlice (xs.map f) g = (granuleSlice xs g).map f := by
  simp [granuleSlice]

end Granules

/-- The plain bytes of granule `g`. -/
def laneBytes (encoding : Encoding) (w : Nat) (base : I64) (vals : List I64) (g : Nat) : List UInt8 :=
  ((granuleSlice vals g).map (lane encoding w base)).flatten

theorem flatten_laneBytes (h : vals.length ≤ ng * granuleRows) :
    ((List.range ng).map (laneBytes encoding w base vals)).flatten = (vals.map (lane encoding w base)).flatten := by
  have hmap : (List.range ng).map (laneBytes encoding w base vals) =
      (((List.range ng).map (granuleSlice vals)).map (List.map (lane encoding w base))).map List.flatten := by
    rw [map_map, map_map]
    rfl
  rw [hmap, ← flatten_flatten, ← map_flatten, flatten_granules vals h]

/-- The plain payload holds the lanes of granule `g` at its row offset. -/
theorem sits_laneBytes (hl : Laned base vals encoding w) (hg : g * granuleRows ≤ vals.length) :
    Sits (vals.map (lane encoding w base)).flatten (g * granuleRows * w) (laneBytes encoding w base vals g) := by
  refine ⟨((vals.take (g * granuleRows)).map (lane encoding w base)).flatten,
    ((vals.drop ((g + 1) * granuleRows)).map (lane encoding w base)).flatten, ?_, ?_⟩
  · rw [laneBytes, append_assoc, ← flatten_append, ← map_append, ← drop_granule,
      ← flatten_append, ← map_append, take_append_drop]
  · rw [hl.flatten_length, length_take, Nat.min_eq_left hg]

section Plan

variable (lib : Compressors) (cc : CodecCtx) (base : I64) (vals : List I64)

/-- A row of frames, one a granule, from stored bytes and raw images. -/
def framesOf (ng : Nat) (stored raw : Nat → List UInt8) : List (List UInt8 × Nat) :=
  (List.range ng).map (fun g => (stored g, (raw g).length))

theorem framesOf_get (stored raw : Nat → List UInt8) (h : g < ng) :
    (framesOf ng stored raw)[g]? = some (stored g, (raw g).length) := by
  simp [framesOf, getElem?_range h]

/-- The four outcomes of the encoder. -/
inductive PlanSpec (ng : Nat) : IntPlan → Prop
  | const (h : ∀ v ∈ vals, v = base) : PlanSpec ng ⟨.const, 0, .none, [], 0⟩
  | plain {encoding : Encoding} {w : Nat} (hl : Laned base vals encoding w) :
      PlanSpec ng ⟨encoding, w, .none, [], vals.length * w⟩
  | framed {encoding : Encoding} {w : Nat} {c : Codec} (comp : Nat → List UInt8)
      (hl : Laned base vals encoding w) (hc : c ≠ .none)
      (hcomp : ∀ g, g < ng → cc.compress lib c (laneBytes encoding w base vals g) = some (comp g))
      (hsize : framesLen (framesOf ng comp (laneBytes encoding w base vals)) ≤ vals.length * 8) :
      PlanSpec ng ⟨encoding, w, c, framesOf ng comp (laneBytes encoding w base vals),
        framesLen (framesOf ng comp (laneBytes encoding w base vals))⟩
  | delta {c : Codec} (stored img : Nat → List UInt8)
      (himg : ∀ g, g < ng → deltaImage (granuleSlice vals g) = some (img g))
      (hstored : ∀ g, g < ng → stored g = img g ∨
        (cc.compress lib c (img g) = some (stored g) ∧ (stored g).length < (img g).length))
      (hsize : framesLen (framesOf ng stored img) ≤ vals.length * 8) :
      PlanSpec ng ⟨.deltaFor, 0, c, framesOf ng stored img, framesLen (framesOf ng stored img)⟩

variable {lib cc base vals}

theorem PlanSpec.payloadLen_le (h : PlanSpec lib cc base vals ng plan) : plan.payloadLen ≤ vals.length * 8 := by
  cases h with
  | const => exact Nat.zero_le _
  | plain hl => exact Nat.mul_le_mul_left _ hl.width_le
  | framed comp hl hc hcomp hsize => exact hsize
  | delta stored img himg hstored hsize => exact hsize

theorem compress_isSome (cc : CodecCtx) {c : Codec} (hc : c ≠ .none) (data : List UInt8) :
    ∃ comp, cc.compress lib c data = some comp := by
  cases c with
  | none => exact absurd rfl hc
  | lz4 | zstd => exact ⟨_, rfl⟩

/-- A chunk whose values all lie between `base` and `top` gets a lane that fits them. -/
theorem intEncoding_laned (hmin : ∀ v ∈ vals, base.toInt ≤ v.toInt) (hmax : ∀ v ∈ vals, v.toInt ≤ top.toInt)
    (hne : base ≠ top) : Laned base vals (intEncoding base top).1 (intEncoding base top).2 := by
  have hcases := rangeWidth_cases (top.toInt - base.toInt).toNat
  simp only [intEncoding, hne]
  by_cases h8 : rangeWidth (top.toInt - base.toInt).toNat = 8
  · simp only [h8]
    exact .raw
  · simp only [h8, if_false]
    refine .for _ (by omega) ?_
    intro v hv
    have hlow := hmin v hv
    have hhigh := hmax v hv
    have hlt : (top.toInt - base.toInt).toNat < 256 ^ rangeWidth (top.toInt - base.toInt).toNat := by
      omega
    constructor
    · exact hlow
    · zify at hlt
      omega

theorem framed_raw_le (hl : Laned base vals encoding w) (hng : vals.length ≤ ng * granuleRows)
    (comp : Nat → List UInt8) :
    ((framesOf ng comp (laneBytes encoding w base vals)).map Prod.snd).sum ≤ vals.length * 8 := by
  have hsum : ((framesOf ng comp (laneBytes encoding w base vals)).map Prod.snd).sum =
      (vals.map (lane encoding w base)).flatten.length := by
    rw [← flatten_laneBytes hng, length_flatten, framesOf, map_map, map_map]
    rfl
  rw [hsum, hl.flatten_length]
  exact Nat.mul_le_mul_left _ hl.width_le

theorem plainPlan_spec {top : I64} {ng : Nat} (hmin : ∀ v ∈ vals, base.toInt ≤ v.toInt)
    (hmax : ∀ v ∈ vals, v.toInt ≤ top.toInt) (hng : vals.length ≤ ng * granuleRows) :
    ∃ plan, plainPlan lib cc vals ng base top = some plan ∧ PlanSpec lib cc base vals ng plan ∧
      (plan.encoding = .const ↔ (intEncoding base top).1 = .const) := by
  obtain rfl | hne := eq_or_ne base top
  · refine ⟨_, by simp [plainPlan, intEncoding], .const ?_, by simp [intEncoding]⟩
    intro v hv
    exact BitVec.eq_of_toInt_eq (Int.le_antisymm (hmax v hv) (hmin v hv))
  · have hl := intEncoding_laned hmin hmax hne
    have hconst : (intEncoding base top).1 ≠ .const := by
      intro hc
      rw [hc] at hl
      cases hl
    simp only [plainPlan, hconst, hl.encIntGranule 0, Option.bind_eq_bind, Option.bind_some]
    generalize (intEncoding base top).1 = encoding at hl hconst ⊢
    generalize (intEncoding base top).2 = w at hl ⊢
    have hplain : ∃ plan, some (IntPlan.mk encoding w .none [] (vals.length * w)) = some plan ∧
        PlanSpec lib cc base vals ng plan ∧ (plan.encoding = .const ↔ False) :=
      ⟨_, rfl, .plain hl, iff_of_false hconst id⟩
    cases hpick : cc.pick lib ((granuleSlice vals 0).map (lane encoding w base)).flatten
        (encoding = .for ∧ w ≤ 2) with
    | none => exact hplain
    | some c =>
      have hc := CodecCtx.pick_ne_none lib cc hpick
      choose comp hcomp using fun g => @compress_isSome lib cc c hc (laneBytes encoding w base vals g)
      have hframes : plainFrames lib cc vals ng encoding w base c =
          some (framesOf ng comp (laneBytes encoding w base vals)) := by
        apply mapM_eq_some
        intro g _
        rw [hl.encIntGranule g]
        change (cc.compress lib c (laneBytes encoding w base vals g) >>= _) = _
        rw [hcomp g]
        rfl
      simp only [hframes, Option.bind_some]
      by_cases hwin : framesLen (framesOf ng comp (laneBytes encoding w base vals)) * 10 ≤
          ((framesOf ng comp (laneBytes encoding w base vals)).map Prod.snd).sum * 9
      · simp only [hwin]
        refine ⟨_, rfl, .framed comp hl hc (fun g _ => hcomp g) ?_, iff_of_false hconst id⟩
        have := framed_raw_le hl hng comp
        omega
      · simp only [hwin]
        exact hplain

theorem deltaFrame_spec {c : Codec} (img : List UInt8) :
    ∃ stored, deltaFrame lib cc c img = some (stored, img.length) ∧
      (stored = img ∨ (cc.compress lib c img = some stored ∧ stored.length < img.length)) := by
  obtain rfl | hc := eq_or_ne c .none
  · exact ⟨img, rfl, .inl rfl⟩
  · obtain ⟨comp, hcomp⟩ := @compress_isSome lib cc c hc img
    have hframe : deltaFrame lib cc c img = some (if img.length ≤ comp.length then img else comp, img.length) := by
      cases c with
      | none => exact absurd rfl hc
      | lz4 | zstd => simp [deltaFrame, hcomp]
    rw [hframe]
    by_cases hlen : img.length ≤ comp.length
    · exact ⟨img, by simp [hlen], .inl rfl⟩
    · exact ⟨comp, by simp [hlen], .inr ⟨hcomp, by omega⟩⟩

theorem deltaImage_isSome (h : rows ≠ []) : ∃ img, deltaImage rows = some img := by
  cases rows with
  | nil => exact absurd rfl h
  | cons => exact ⟨_, rfl⟩

theorem choosePlan_spec (h : PlanSpec lib cc base vals (granuleCount vals.length) plan) (hne : vals ≠ []) :
    ∃ plan', choosePlan lib cc vals (granuleCount vals.length) plan = some plan' ∧
      PlanSpec lib cc base vals (granuleCount vals.length) plan' ∧
      (plan'.encoding = .const ↔ plan.encoding = .const) := by
  by_cases hdelta : cc.delta ∧ plan.encoding ≠ .const
  · simp only [choosePlan, hdelta, ne_eq]
    have himg : ∀ g, ∃ img, g < granuleCount vals.length → deltaImage (granuleSlice vals g) = some img := by
      intro g
      by_cases hg : g < granuleCount vals.length
      · obtain ⟨img, himg⟩ := deltaImage_isSome (granuleSlice_ne_nil vals hg)
        exact ⟨img, fun _ => himg⟩
      · exact ⟨[], fun h => absurd h hg⟩
    choose img himg using himg
    have hpos : 0 < granuleCount vals.length := by
      have hlen : 0 < vals.length := length_pos_iff.mpr hne
      have hle := le_granuleCount vals.length
      rcases Nat.eq_zero_or_pos (granuleCount vals.length) with h0 | hpos
      · rw [h0] at hle
        omega
      · exact hpos
    have hzero : encDeltaGranule vals 0 = some (img 0) := himg 0 hpos
    rw [hzero, some_bind]
    generalize (cc.pick lib (img 0) false).getD .none = c
    choose stored hstored using fun g => @deltaFrame_spec lib cc c (img g)
    have hframes : deltaFrames lib cc vals (granuleCount vals.length) c =
        some (framesOf (granuleCount vals.length) stored img) := by
      apply mapM_eq_some
      intro g hg
      have hgran : encDeltaGranule vals g = some (img g) := himg g (mem_range.mp hg)
      rw [hgran]
      exact (hstored g).1
    simp only [hframes, some_bind]
    by_cases hwin : framesLen (framesOf (granuleCount vals.length) stored img) * 10 ≤ plan.payloadLen * 9
    · simp only [hwin]
      have hle := h.payloadLen_le
      exact ⟨_, rfl, .delta stored img himg (fun g _ => (hstored g).2) (by omega),
        iff_of_false Encoding.noConfusion id⟩
    · simp only [hwin]
      exact ⟨plan, rfl, h, iff_of_false hdelta.2 id⟩
  · simp only [choosePlan, hdelta]
    exact ⟨plan, rfl, h, Iff.rfl⟩

end Plan

end ColumnarIntPlan
