import Mathlib.Data.Fintype.Card

/-!
Counting the threads of a finite system that are in some kind of place, as one thread moves. The
places are any type, the kind is a test on it.
-/
namespace ThreadCount

variable {ι α : Type*} [Fintype ι]

/-- How many threads are at a place that passes the test. -/
def count (p : α → Bool) (f : ι → α) : Nat := (Finset.univ.filter (fun i => p (f i) = true)).card

variable {p : α → Bool} {f : ι → α} {i : ι} {a : α}

theorem count_congr (h : ∀ i, p (f i) = p (g i)) : count p f = count p g := by
  rw [count]
  congr 1
  apply Finset.filter_congr
  intro i _
  rw [h i]

theorem count_pos : 0 < count p f ↔ ∃ i, p (f i) = true := by
  rw [count, Finset.card_pos]
  constructor
  · rintro ⟨i, hi⟩
    exact ⟨i, (Finset.mem_filter.mp hi).2⟩
  · rintro ⟨i, hi⟩
    exact ⟨i, Finset.mem_filter.mpr ⟨Finset.mem_univ i, hi⟩⟩

theorem count_eq_zero : count p f = 0 ↔ ∀ i, p (f i) = false := by
  have hpos := @count_pos ι α _ p f
  constructor
  · intro hzero i
    by_contra hi
    have := hpos.mpr ⟨i, by simpa using hi⟩
    omega
  · intro hall
    by_contra hne
    obtain ⟨i, hi⟩ := hpos.mp (Nat.pos_of_ne_zero hne)
    rw [hall i] at hi
    cases hi

/-- Where at most one thread can be, two threads are one. -/
theorem eq_of_count_le_one (h : count p f ≤ 1) (hi : p (f i) = true) (hj : p (f j) = true) : i = j := by
  rw [count, Finset.card_le_one] at h
  exact h i (Finset.mem_filter.mpr ⟨Finset.mem_univ i, hi⟩) j (Finset.mem_filter.mpr ⟨Finset.mem_univ j, hj⟩)

/-- Two tests that never pass together count different threads. -/
theorem count_add_count_le_card {q : α → Bool} (h : ∀ a, p a = true → q a = false) :
    count p f + count q f ≤ Fintype.card ι := by
  classical
  rw [count, count, ← Finset.card_union_of_disjoint]
  · exact Finset.card_le_univ _
  · apply Finset.disjoint_filter.mpr
    intro i _ hp hq
    rw [h _ hp] at hq
    cases hq

variable [DecidableEq ι]

theorem count_update_same (h : p a = p (f i)) : count p (Function.update f i a) = count p f := by
  apply count_congr
  intro j
  obtain rfl | hj := eq_or_ne j i
  · rw [Function.update_self, h]
  · rw [Function.update_of_ne hj]

theorem filter_update_of_leave (ha : p a = false) :
    Finset.univ.filter (fun j => p (Function.update f i a j) = true) =
      (Finset.univ.filter (fun j => p (f j) = true)).erase i := by
  ext j
  obtain rfl | hj := eq_or_ne j i
  · simp [ha]
  · simp [hj]

/-- The thread leaves the places that count. -/
theorem count_update_leave (hi : p (f i) = true) (ha : p a = false) :
    count p (Function.update f i a) + 1 = count p f := by
  have hmem : i ∈ Finset.univ.filter (fun j => p (f j) = true) := Finset.mem_filter.mpr ⟨Finset.mem_univ i, hi⟩
  rw [count, filter_update_of_leave ha]
  exact Finset.card_erase_add_one hmem

/-- The thread enters them. -/
theorem count_update_enter (hi : p (f i) = false) (ha : p a = true) :
    count p (Function.update f i a) = count p f + 1 := by
  have hself : p (Function.update f i a i) = true := by
    rw [Function.update_self]
    exact ha
  have hback := @count_update_leave ι α _ p (Function.update f i a) i (f i) _ hself hi
  rw [Function.update_idem, Function.update_eq_self] at hback
  exact hback.symm

/-- What one move changes in the count. -/
theorem count_update : count p (Function.update f i a) + (p (f i)).toNat = count p f + (p a).toNat := by
  cases hi : p (f i) <;> cases ha : p a
  · rw [count_update_same (ha.trans hi.symm)]
  · rw [count_update_enter hi ha, Bool.toNat_false, Bool.toNat_true]
  · rw [Bool.toNat_true, count_update_leave hi ha, Bool.toNat_false, Nat.add_zero]
  · rw [count_update_same (ha.trans hi.symm)]

end ThreadCount
