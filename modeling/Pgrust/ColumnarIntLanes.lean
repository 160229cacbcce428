import Pgrust.ColumnarChunkImage

/-!
# The lanes of fixed-width granules

How one row is stored under FOR, RAW and DELTAFOR, and that it is read back, over
the whole range of `i64`.
-/
namespace ColumnarIntLanes

open ByteImage ColumnarFormat ColumnarCodec ColumnarIntChunk ColumnarChunkView List

variable {α : Type}

theorem mapM_eq_some {β : Type} {f : α → Option β} {h : α → β} {xs : List α} (hf : ∀ x ∈ xs, f x = some (h x)) :
    xs.mapM f = some (xs.map h) := by
  induction xs with
  | nil => rfl
  | cons x xs ih =>
    rw [mapM_cons, hf x (mem_cons_self ..), ih (forall_mem_cons.mp hf).2]
    rfl

variable {v base : I64} {w : Nat}

theorem sub_toNat (h : m.toInt ≤ v.toInt) : (v - m).toNat = (v.toInt - m.toInt).toNat := by
  rw [BitVec.toInt_eq_toNat_cond, BitVec.toInt_eq_toNat_cond] at *
  rw [BitVec.toNat_sub]
  split at h <;> split at h <;> simp only [*, if_true, if_false] <;> omega

theorem add_sub_self (v m : I64) : m + (v - m) = v := by
  rw [BitVec.add_comm, BitVec.sub_add_cancel]

theorem i64OfLe_leBytes (h : d.toNat < 256 ^ w) : i64OfLe (leBytes w d.toNat) = d := by
  rw [i64OfLe, leNat_leBytes_of_lt h, BitVec.ofNat_toNat, BitVec.setWidth_eq]

/-- A row above the base of a FOR chunk. -/
def Above (w : Nat) (base v : I64) : Prop := base.toInt ≤ v.toInt ∧ v.toInt - base.toInt < 256 ^ w

theorem Above.toNat_lt (h : Above w base v) : (v - base).toNat < 256 ^ w := by
  rw [sub_toNat h.1]
  have h₁ := h.1
  have h₂ := h.2
  zify
  rw [Int.toNat_of_nonneg (by omega)]
  exact h₂

theorem checkedSub_of_above (hw : w ≤ 4) (h : Above w base v) : checkedSub v base = some (v - base) := by
  have hpow : (256 : Int) ^ w ≤ 256 ^ 4 := by
    exact_mod_cast Nat.pow_le_pow_right (by decide) hw
  have hrange : -2 ^ 63 ≤ v.toInt - base.toInt ∧ v.toInt - base.toInt < 2 ^ 63 := by
    have h₁ := h.1
    have h₂ := h.2
    omega
  simp only [checkedSub, hrange, and_self, if_true]

theorem checkedAdd_of_above (hw : w ≤ 4) (h : Above w base v) :
    checkedAdd base (i64OfLe (leBytes w (v - base).toNat)) = some v := by
  have hlt := h.toNat_lt
  have hpow : 256 ^ w ≤ 256 ^ 4 := Nat.pow_le_pow_right (by decide) hw
  have hint : (v - base).toInt = v.toInt - base.toInt := by
    rw [BitVec.toInt_eq_toNat_of_lt (by omega), sub_toNat h.1, Int.toNat_of_nonneg (by have := h.1; omega)]
  have hv₁ := v.toInt_lt
  have hv₂ := v.le_toInt
  have hrange : -2 ^ 63 ≤ base.toInt + (v - base).toInt ∧ base.toInt + (v - base).toInt < 2 ^ 63 := by
    omega
  rw [i64OfLe_leBytes hlt]
  simp only [checkedAdd, hrange, and_self, if_true, add_sub_self]

/-- How one row of a chunk is stored: the encodings with a fixed lane per row. -/
inductive Laned (base : I64) (vals : List I64) : Encoding → Nat → Prop
  | for (w : Nat) (hw : w = 1 ∨ w = 2 ∨ w = 4) (h : ∀ v ∈ vals, Above w base v) : Laned base vals .for w
  | raw : Laned base vals .raw 8

def lane (encoding : Encoding) (w : Nat) (base v : I64) : List UInt8 :=
  match encoding with
  | .for => leBytes w (v - base).toNat
  | _ => putI64 v

section Laned

variable {base : I64} {vals : List I64} {encoding : Encoding} {w : Nat}

theorem Laned.lane_length (h : Laned base vals encoding w) (v : I64) : (lane encoding w base v).length = w := by
  cases h with
  | «for» w hw h => exact leBytes_length w _
  | raw => exact putI64_length v

theorem Laned.width_le (h : Laned base vals encoding w) : w ≤ 8 := by
  cases h with
  | «for» w hw h => omega
  | raw => exact Nat.le_refl 8

theorem mem_granuleSlice (h : x ∈ granuleSlice xs g) : x ∈ xs := mem_of_mem_drop (mem_of_mem_take h)

section

variable (h : Laned base vals encoding w)
include h

theorem Laned.encIntGranule (g : Nat) :
    encIntGranule vals g encoding w base = some ((granuleSlice vals g).map (lane encoding w base)).flatten := by
  cases h with
  | «for» w hw h =>
    have hmap : (granuleSlice vals g).mapM (fun v => (checkedSub v base).map (fun d => leBytes w d.toNat)) =
        some ((granuleSlice vals g).map (fun v => leBytes w (v - base).toNat)) := by
      apply mapM_eq_some
      intro v hv
      rw [checkedSub_of_above (by omega) (h v (mem_granuleSlice hv)), Option.map_some]
    simp only [ColumnarIntChunk.encIntGranule, hw, hmap]
    rfl
  | raw => rfl

theorem Laned.flatten_length (rows : List I64) :
    (rows.map (lane encoding w base)).flatten.length = rows.length * w :=
  flatten_map_length h.lane_length rows

theorem Laned.lanes_flatten (rows : List I64) :
    lanes w rows.length (rows.map (lane encoding w base)).flatten = some (rows.map (lane encoding w base)) :=
  lanes_map h.lane_length rows

end

end Laned

/-- The bounds a fold of minima or maxima keeps. -/
theorem foldl_i64MinOf (v : I64) (rest : List I64) : ∀ x ∈ v :: rest, (rest.foldl i64MinOf v).toInt ≤ x.toInt := by
  induction rest generalizing v with
  | nil => simp
  | cons y rest ih =>
    have hrest := ih (i64MinOf v y)
    have hmin : (i64MinOf v y).toInt ≤ v.toInt ∧ (i64MinOf v y).toInt ≤ y.toInt := by
      unfold i64MinOf
      split <;> omega
    simp only [forall_mem_cons, foldl_cons] at hrest ⊢
    exact ⟨by omega, by omega, hrest.2⟩

theorem foldl_i64MaxOf (v : I64) (rest : List I64) : ∀ x ∈ v :: rest, x.toInt ≤ (rest.foldl i64MaxOf v).toInt := by
  induction rest generalizing v with
  | nil => simp
  | cons y rest ih =>
    have hrest := ih (i64MaxOf v y)
    have hmax : v.toInt ≤ (i64MaxOf v y).toInt ∧ y.toInt ≤ (i64MaxOf v y).toInt := by
      unfold i64MaxOf
      split <;> omega
    simp only [forall_mem_cons, foldl_cons] at hrest ⊢
    exact ⟨by omega, by omega, hrest.2⟩

/-- The fold over pairs is the pair of the folds. -/
theorem foldl_minmax (rest : List I64) (a b : I64) :
    rest.foldl (fun m v => (i64MinOf m.1 v, i64MaxOf m.2 v)) (a, b) =
      (rest.foldl i64MinOf a, rest.foldl i64MaxOf b) := by
  induction rest generalizing a b with
  | nil => rfl
  | cons v rest ih => exact ih _ _

theorem rangeWidth_cases (range : Nat) : (rangeWidth range = 8 ∨ range < 256 ^ rangeWidth range) ∧
      (rangeWidth range = 1 ∨ rangeWidth range = 2 ∨ rangeWidth range = 4 ∨ rangeWidth range = 8) := by
  unfold rangeWidth
  split
  · omega
  · split
    · omega
    · split <;> omega

@[simp] theorem deltas_length (v : I64) (rest : List I64) : (deltas (v :: rest)).length = rest.length := by
  induction rest generalizing v with
  | nil => rfl
  | cons w rest ih => simp [deltas, ih]

/-- Every delta of a granule fits the width chosen for it. -/
theorem delta_fits (h : d ∈ ds) :
    (d - (deltaMinmax ds).1).toNat < 256 ^ deltaWidth (deltaMinmax ds).1 (deltaMinmax ds).2 := by
  cases ds with
  | nil => simp at h
  | cons e rest =>
    simp only [deltaMinmax, foldl_minmax]
    have hmin := foldl_i64MinOf e rest d h
    have hmax := foldl_i64MaxOf e rest d h
    generalize rest.foldl i64MinOf e = lo at hmin ⊢
    generalize rest.foldl i64MaxOf e = hi at hmax ⊢
    rw [sub_toNat hmin]
    unfold deltaWidth
    have h₁ := hi.toInt_lt
    have h₂ := lo.le_toInt
    by_cases hzero : (hi.toInt - lo.toInt).toNat = 0
    · simp only [hzero, if_true]
      omega
    · simp only [hzero, if_false]
      rcases (rangeWidth_cases (hi.toInt - lo.toInt).toNat).1 with h8 | hlt
      · rw [h8]
        omega
      · omega

theorem deltaWidth_cases (dmin dmax : I64) :
    deltaWidth dmin dmax = 0 ∨ deltaWidth dmin dmax = 1 ∨ deltaWidth dmin dmax = 2 ∨
      deltaWidth dmin dmax = 4 ∨ deltaWidth dmin dmax = 8 := by
  simp only [deltaWidth]
  split
  · exact .inl rfl
  · have := (rangeWidth_cases (dmax.toInt - dmin.toInt).toNat).2
    omega

/-- The prefix sum over the stored deltas gives the rows back. -/
theorem prefixSum_deltas (v : I64) (rest : List I64) (h : ∀ d ∈ deltas (v :: rest), (d - dmin).toNat < 256 ^ w) :
    prefixSum dmin v ((deltas (v :: rest)).map (fun d => leBytes w (d - dmin).toNat)) = v :: rest := by
  induction rest generalizing v with
  | nil => rfl
  | cons b rest ih =>
    simp only [deltas, map_cons, prefixSum]
    have hd := h (b - v) (by simp [deltas])
    rw [i64OfLe_leBytes hd, add_sub_self, add_sub_self]
    rw [ih b (fun d hd => h d (by simp only [deltas]; exact mem_cons_of_mem _ hd))]

theorem deltaImage_length (h : deltaImage rows = some img) : img.length ≤ 24 + 8 * rows.length := by
  cases rows with
  | nil => simp [deltaImage] at h
  | cons v rest =>
    simp only [deltaImage, Option.some.injEq] at h
    generalize hw : deltaWidth (deltaMinmax (deltas (v :: rest))).1 (deltaMinmax (deltas (v :: rest))).2 = w at h
    have hcases := deltaWidth_cases (deltaMinmax (deltas (v :: rest))).1 (deltaMinmax (deltas (v :: rest))).2
    have hflat := flatten_map_length (fun d => leBytes_length w (d - (deltaMinmax (deltas (v :: rest))).1).toNat)
      (deltas (v :: rest))
    rw [← h]
    simp only [length_append, putI64_length, length_cons, length_nil, length_replicate, hflat, deltas_length]
    have : rest.length * w ≤ rest.length * 8 := Nat.mul_le_mul_left _ (by omega)
    omega

/-- A delta image decodes to the rows it was made from. -/
theorem deltaRows_deltaImage (h : deltaImage rows = some img) : deltaRows img rows.length = some rows := by
  cases rows with
  | nil => simp [deltaImage] at h
  | cons v rest =>
    simp only [deltaImage, Option.some.injEq] at h
    have hfits : ∀ d ∈ deltas (v :: rest), _ := fun d hd => delta_fits hd
    have hcases := deltaWidth_cases (deltaMinmax (deltas (v :: rest))).1 (deltaMinmax (deltas (v :: rest))).2
    generalize deltaWidth (deltaMinmax (deltas (v :: rest))).1
      (deltaMinmax (deltas (v :: rest))).2 = w at h hfits hcases
    generalize hdmin : (deltaMinmax (deltas (v :: rest))).1 = dmin at h hfits
    have hlanes := lanes_map (fun d => leBytes_length w (d - dmin).toNat) (deltas (v :: rest))
    have hsum := prefixSum_deltas v rest hfits
    rw [deltas_length] at hlanes
    generalize (deltas (v :: rest)).map (fun d => leBytes w (d - dmin).toNat) = ls at h hlanes hsum
    have himg : img = putI64 v ++ (putI64 dmin ++ ([UInt8.ofNat w] ++ (List.replicate 7 0 ++ ls.flatten))) := by
      rw [← h]
      simp
    have hall := (congrArg (Sits img 0) himg).mp (sits_self img)
    have h₁ := hall.right
    have h₂ := h₁.right
    simp only [putI64_length] at h₁ h₂
    have hdrop : img.drop 24 = ls.flatten := by
      rw [← h]
      exact drop_left' (by simp)
    have hwidth : (if UInt8.ofNat w = 0 ∨ UInt8.ofNat w = 1 ∨ UInt8.ofNat w = 2 ∨ UInt8.ofNat w = 4
        then (UInt8.ofNat w).toNat else 8) = w := by
      rcases hcases with rfl | rfl | rfl | rfl | rfl <;> rfl
    have hshort : ¬ ((v :: rest).length = 0 ∨ img.length < 24) := by
      simp only [himg, length_cons, length_append, putI64_length, length_replicate]
      omega
    simp only [deltaRows, getI64_of_sits hall.left, getI64_of_sits h₁.left, getElem?_of_sits h₂.left,
      Option.bind_eq_bind, Option.bind_some, hwidth, hshort, if_false, hdrop]
    rw [length_cons, Nat.add_sub_cancel, hlanes, Option.bind_some, hsum]

end ColumnarIntLanes
