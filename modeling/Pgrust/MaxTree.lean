import Mathlib.Order.BoundedOrder.Basic
import Mathlib.Order.MinMax

/-!
Trees of maxima over an array. Node `x` has the nodes `2 x + 1` and `2 x + 2` for children, as far
as the array goes; the first `inner` nodes are inner ones and hold the larger value of their
children. The tree may be cut off anywhere in its last row, so that inner nodes without children
occur, which hold the least value.
-/
namespace MaxTree

open Function (update update_of_ne update_self)

variable {α : Type*} [LinearOrder α] [OrderBot α]

/-- The larger value of the children, of which the array has `nodes`. -/
def childMax (nodes : Nat) (f : Nat → α) (x : Nat) : α :=
  max (if 2 * x + 1 < nodes then f (2 * x + 1) else ⊥) (if 2 * x + 2 < nodes then f (2 * x + 2) else ⊥)

/-- Every inner node holds the larger value of its children. -/
def Stands (inner nodes : Nat) (f : Nat → α) : Prop := ∀ x, x < inner → f x = childMax nodes f x

/-- The inner nodes other than `hole` do. -/
def StandsOff (inner nodes hole : Nat) (f : Nat → α) : Prop := ∀ x, x < inner → x ≠ hole → f x = childMax nodes f x

/-- The inner nodes from `k` on do. -/
def StandsFrom (inner nodes k : Nat) (f : Nat → α) : Prop := ∀ x, k ≤ x → x < inner → f x = childMax nodes f x

variable {inner nodes : Nat} {f : Nat → α} {x : Nat}

theorem childMax_congr (hl : f (2 * x + 1) = g (2 * x + 1)) (hr : f (2 * x + 2) = g (2 * x + 2)) :
    childMax nodes f x = childMax nodes g x := by
  rw [childMax, childMax, hl, hr]

theorem le_childMax (hx : 0 < x) (hlt : x < nodes) : f x ≤ childMax nodes f ((x - 1) / 2) := by
  have hcase : x = 2 * ((x - 1) / 2) + 1 ∨ x = 2 * ((x - 1) / 2) + 2 := by omega
  generalize (x - 1) / 2 = p at hcase
  cases hcase with
  | inl h =>
    subst h
    rw [childMax, if_pos hlt]
    exact le_max_left _ _
  | inr h =>
    subst h
    rw [childMax, if_pos hlt]
    exact le_max_right _ _

/-- The root holds the largest value. -/
theorem Stands.le_root (h : Stands inner nodes f) (hnodes : nodes ≤ 2 * inner + 1)
    (hx : x < nodes) : f x ≤ f 0 := by
  induction x using Nat.strong_induction_on with
  | _ x ih =>
    obtain rfl | hzero := eq_or_ne x 0
    · exact le_refl _
    · have hup : f x ≤ f ((x - 1) / 2) := by
        rw [h ((x - 1) / 2) (by omega)]
        exact le_childMax (by omega) hx
      exact le_trans hup (ih _ (by omega) (by omega))

/-- What an inner node holds, one of its children holds. -/
theorem Stands.below (h : Stands inner nodes f) (hx : x < inner) (hbot : ⊥ < m) (hm : m ≤ f x) :
    (2 * x + 1 < nodes ∧ m ≤ f (2 * x + 1)) ∨ (2 * x + 2 < nodes ∧ m ≤ f (2 * x + 2)) := by
  rw [h x hx, childMax, le_max_iff] at hm
  cases hm with
  | inl hl =>
    by_cases hlt : 2 * x + 1 < nodes
    · rw [if_pos hlt] at hl
      exact .inl ⟨hlt, hl⟩
    · rw [if_neg hlt] at hl
      exact absurd (lt_of_lt_of_le hbot hl) (lt_irrefl _)
  | inr hr =>
    by_cases hlt : 2 * x + 2 < nodes
    · rw [if_pos hlt] at hr
      exact .inr ⟨hlt, hr⟩
    · rw [if_neg hlt] at hr
      exact absurd (lt_of_lt_of_le hbot hr) (lt_irrefl _)

omit [LinearOrder α] [OrderBot α] in
theorem update_child (hx : y ≠ (x - 1) / 2 ∨ x = 0) (v : α) :
    update f x v (2 * y + 1) = f (2 * y + 1) ∧ update f x v (2 * y + 2) = f (2 * y + 2) := by
  have hl : 2 * y + 1 ≠ x := by omega
  have hr : 2 * y + 2 ≠ x := by omega
  exact ⟨update_of_ne hl v f, update_of_ne hr v f⟩

/-- A change at a node is felt at its parent alone. -/
theorem childMax_update (hx : y ≠ (x - 1) / 2 ∨ x = 0) (v : α) :
    childMax nodes (update f x v) y = childMax nodes f y :=
  childMax_congr (update_child hx v).1 (update_child hx v).2

/-- A value put in a leaf leaves the tree standing off the leaf's parent. -/
theorem Stands.put_leaf (h : Stands inner nodes f) (hx : inner ≤ x) (v : α) :
    StandsOff inner nodes ((x - 1) / 2) (update f x v) := by
  intro y hy hne
  rw [update_of_ne (by omega), childMax_update (.inl hne)]
  exact h y hy

/-- A node that already holds its children's maximum closes the hole. -/
theorem StandsOff.close (h : StandsOff inner nodes x f) (hx : f x = childMax nodes f x) : Stands inner nodes f := by
  intro y hy
  obtain rfl | hyx := eq_or_ne y x
  · exact hx
  · exact h y hy hyx

/-- Setting the hole right moves it to the parent. -/
theorem StandsOff.up (h : StandsOff inner nodes x f) (hx : 0 < x) :
    StandsOff inner nodes ((x - 1) / 2) (update f x (childMax nodes f x)) := by
  intro y hy hne
  rw [childMax_update (.inl hne)]
  obtain rfl | hyx := eq_or_ne y x
  · exact update_self ..
  · rw [update_of_ne hyx]
    exact h y hy hyx

/-- Setting the root right closes the hole. -/
theorem StandsOff.root (h : StandsOff inner nodes 0 f) : Stands inner nodes (update f 0 (childMax nodes f 0)) := by
  intro y hy
  obtain rfl | hyx := eq_or_ne y 0
  · exact update_self ..
  · rw [update_of_ne hyx]
    exact h y hy hyx

/-- Setting a node right below which all stand. -/
theorem StandsFrom.down (h : StandsFrom inner nodes (x + 1) f) :
    StandsFrom inner nodes x (update f x (childMax nodes f x)) := by
  intro y hxy hy
  rw [childMax_update (by omega)]
  obtain rfl | hyx := eq_or_ne y x
  · exact update_self ..
  · rw [update_of_ne hyx]
    exact h y (by omega) hy

end MaxTree
