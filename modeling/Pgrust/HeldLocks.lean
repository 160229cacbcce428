import Mathlib.Logic.Function.Basic

/-!
Exclusive locks of a system of threads. The locks say who has them, the threads' places say what
they have, and the two agree as threads acquire and release one lock at a time.
-/
namespace HeldLocks

variable {ι L : Type*}

/-- `holder` and `holds` tell the same of every lock and thread. -/
def Agree (holder : L → Option ι) (holds : ι → L → Bool) : Prop := ∀ l i, holder l = some i ↔ holds i l = true

variable {holder : L → Option ι} {holds : ι → L → Bool} {i : ι} {l : L}

/-- A lock has one holder. -/
theorem Agree.unique (h : Agree holder holds) (hi : holds i l = true) (hj : holds j l = true) : i = j := by
  have hsome := (h l i).mpr hi
  rw [(h l j).mpr hj] at hsome
  exact (Option.some.inj hsome).symm

theorem Agree.free (h : Agree holder holds) (hfree : holder l = none) (i : ι) : holds i l = false := by
  by_contra hheld
  rw [Bool.not_eq_false, ← h l i, hfree] at hheld
  cases hheld

theorem Agree.keep (h : Agree holder holds) (hsame : ∀ i l, holds' i l = holds i l) : Agree holder holds' := by
  intro l i
  rw [hsame]
  exact h l i

variable [DecidableEq L]

/-- Thread `i` takes the free lock `l`. -/
theorem Agree.acquire (h : Agree holder holds) (hfree : holder l = none)
    (hself : ∀ m, holds' i m = (holds i m || decide (m = l)))
    (hother : ∀ j, j ≠ i → ∀ m, holds' j m = holds j m) :
    Agree (Function.update holder l (some i)) holds' := by
  intro m j
  obtain rfl | hm := eq_or_ne m l
  · rw [Function.update_self]
    obtain rfl | hj := eq_or_ne j i
    · rw [hself, decide_eq_true rfl, Bool.or_true]
      exact ⟨fun _ => rfl, fun _ => rfl⟩
    · rw [hother j hj, h.free hfree j]
      refine ⟨fun heq => absurd (Option.some.inj heq).symm hj, ?_⟩
      nofun
  · rw [Function.update_of_ne hm]
    obtain rfl | hj := eq_or_ne j i
    · rw [hself, decide_eq_false hm, Bool.or_false]
      exact h m j
    · rw [hother j hj]
      exact h m j

/-- Thread `i` gives up the lock `l` it has. -/
theorem Agree.release (h : Agree holder holds) (hheld : holds i l = true)
    (hself : ∀ m, holds' i m = (holds i m && decide (m ≠ l)))
    (hother : ∀ j, j ≠ i → ∀ m, holds' j m = holds j m) :
    Agree (Function.update holder l none) holds' := by
  intro m j
  obtain rfl | hm := eq_or_ne m l
  · rw [Function.update_self]
    constructor
    · nofun
    · intro hj
      exfalso
      obtain rfl | hji := eq_or_ne j i
      · rw [hself, decide_eq_false (not_not.mpr rfl), Bool.and_false] at hj
        cases hj
      · rw [hother j hji] at hj
        exact hji (h.unique hj hheld)
  · rw [Function.update_of_ne hm]
    obtain rfl | hj := eq_or_ne j i
    · rw [hself, decide_eq_true hm, Bool.and_true]
      exact h m j
    · rw [hother j hj]
      exact h m j

end HeldLocks
