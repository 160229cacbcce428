import Mathlib.Data.List.Nodup

/-!
Doubly linked lists in an arena of numbered cells, with cell 0 as the null link. `Chain` says
which cells a walk from a head meets; linking a cell in front and unlinking any cell change the
walk as the corresponding list operations do.
-/

namespace LinkedChain

open Function List

/-- The walk along `next` from `e` is the given list, and every `prev` points back one cell. -/
def Chain (next prev : Nat → Nat) : Nat → Nat → List Nat → Prop
  | _, e, [] => e = 0
  | p, e, s :: ss => e = s ∧ s ≠ 0 ∧ prev s = p ∧ Chain next prev s (next s) ss

variable {next prev : Nat → Nat} {p e s : Nat} {ss : List Nat}

theorem update_of_mem {c d : Nat} (hc : c ∉ ss) (hd : d ∈ ss) (v : Nat) : update f c v d = f d := by
  apply update_of_ne
  intro heq
  rw [heq] at hd
  exact hc hd

section

variable (h : Chain next prev p e ss)
include h

theorem Chain.congr (hnext : ∀ c ∈ ss, next' c = next c)
    (hprev : ∀ c ∈ ss, prev' c = prev c) : Chain next' prev' p e ss := by
  induction ss generalizing p e with
  | nil => exact h
  | cons c ss ih =>
    obtain ⟨hhead, hc, hback, hrest⟩ := h
    constructor
    · exact hhead
    · constructor
      · exact hc
      · constructor
        · rw [hprev c mem_cons_self, hback]
        · rw [hnext c mem_cons_self]
          exact ih hrest (fun d hd => hnext d (mem_cons_of_mem c hd)) (fun d hd => hprev d (mem_cons_of_mem c hd))

theorem Chain.zero_not_mem : 0 ∉ ss := by
  induction ss generalizing p e with
  | nil => exact not_mem_nil
  | cons c ss ih =>
    intro hmem
    cases hmem with
    | head => exact h.2.1 rfl
    | tail _ hmem => exact ih h.2.2.2 hmem

theorem Chain.head_eq : e = ss.headD 0 := by
  cases ss with
  | nil => exact h
  | cons => exact h.1

/-- Only the first back link of a chain depends on what stands before it. -/
theorem Chain.rebase (hnd : ss.Nodup) (q : Nat) : Chain next (update prev e q) q e ss := by
  cases ss with
  | nil => exact h
  | cons c ss =>
    obtain ⟨rfl, hc, hback, hrest⟩ := h
    have hfresh : e ∉ ss := (nodup_cons.mp hnd).1
    constructor
    · rfl
    · constructor
      · exact hc
      · constructor
        · exact update_self e q prev
        · apply hrest.congr (fun d _ => rfl)
          intro d hd
          exact update_of_mem hfresh hd q

end

/-- Linking a fresh cell in front of a chain. -/
theorem Chain.push (h : Chain next prev 0 e ss) (hnd : ss.Nodup) (hs : s ≠ 0) (hfresh : s ∉ ss) :
    Chain (update next s e) (update (update prev s 0) e s) 0 s (s :: ss) := by
  have hne : s ≠ e := by
    intro heq
    cases ss with
    | nil => exact hs (heq.trans h)
    | cons => exact hfresh (by rw [heq, h.1]; exact mem_cons_self)
  constructor
  · rfl
  · constructor
    · exact hs
    · constructor
      · rw [update_of_ne hne, update_self]
      · rw [update_self]
        have hkeep : Chain next (update prev s 0) 0 e ss :=
          h.congr (fun _ _ => rfl) (fun d hd => update_of_mem hfresh hd 0)
        apply (hkeep.rebase hnd s).congr
        · intro d hd
          exact update_of_mem hfresh hd e
        · intro d _
          rfl

section

variable (h : Chain next prev p e (front ++ s :: back))
include h

theorem Chain.next_eq : next s = back.headD 0 := by
  induction front generalizing p e with
  | nil => exact h.2.2.2.head_eq
  | cons a front ih => exact ih h.2.2.2

theorem Chain.prev_eq : prev s = front.getLastD p := by
  induction front generalizing p e with
  | nil => exact h.2.2.1
  | cons a front ih => exact (ih h.2.2.2).trans getLastD_cons.symm

/-- Unlinking a cell: its neighbours are joined over it. -/
theorem Chain.erase (hnd : (front ++ s :: back).Nodup) (hp : p ∉ front ++ s :: back) :
    Chain (update next (prev s) (next s)) (update prev (next s) (prev s)) p
      (if front = [] then next s else e) (front ++ back) := by
  induction front generalizing p e with
  | nil =>
    obtain ⟨rfl, -, hback, hrest⟩ := h
    rw [hback]
    apply (hrest.rebase (nodup_cons.mp hnd).2 p).congr
    · intro d hd
      exact update_of_mem hp (mem_cons_of_mem _ hd) _
    · intro d _
      rfl
  | cons a front ih =>
    obtain ⟨rfl, ha, hback, hrest⟩ := h
    obtain ⟨hfresh, hnd⟩ := nodup_cons.mp hnd
    have hnext : next s ≠ e := by
      rw [hrest.next_eq]
      intro heq
      cases back with
      | nil => exact ha heq.symm
      | cons => exact hfresh (heq ▸ by simp)
    have hskip : update next (prev s) (next s) e = if front = [] then next s else next e := by
      rw [hrest.prev_eq]
      cases front with
      | nil => exact update_self e (next s) next
      | cons b front =>
        rw [getLastD_cons]
        apply update_of_ne
        intro heq
        rw [heq] at hfresh
        exact hfresh (mem_append_left _ getLastD_mem_cons)
    constructor
    · rfl
    · constructor
      · exact ha
      · constructor
        · rw [update_of_ne hnext.symm, hback]
        · rw [hskip]
          exact ih hrest hnd hfresh

end

end LinkedChain
