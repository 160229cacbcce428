import Mathlib

/-!
# One leader and workers with first-in first-out mailboxes

A leader runs a list of actions: local steps on its own state, which may fail, and
sends to workers. Workers receive in any interleaving with the leader and with each
other. Every run keeps one outcome, the one of handling each message at once.
-/
namespace Actors

open List

universe u

variable {L S M : Type u}

structure Worker (S M : Type u) where
  state : S
  mailbox : List M

inductive Action (L M : Type u) where
  | act (f : L → Option L)
  | send (worker : Nat) (msg : M)

structure Config (L S M : Type u) where
  leader : L
  program : List (Action L M)
  workers : List (Worker S M)

variable {c : Config L S M}

section Run

variable (handle : S → M → S)

def Worker.drained (w : Worker S M) : S := w.mailbox.foldl handle w.state

def Worker.push (m : M) (w : Worker S M) : Worker S M := { w with mailbox := w.mailbox ++ [m] }

def Worker.recv (w : Worker S M) : Worker S M :=
  match w.mailbox with
  | [] => w
  | m :: rest => ⟨handle w.state m, rest⟩

@[simp] theorem drained_push (m : M) (w : Worker S M) :
    (w.push m).drained handle = handle (w.drained handle) m := by
  simp [Worker.drained, Worker.push]

@[simp] theorem drained_recv (w : Worker S M) : (w.recv handle).drained handle = w.drained handle := by
  cases h : w.mailbox <;> simp [Worker.drained, Worker.recv, h]

/-- One step of the leader or of one worker with mail. -/
inductive Step : Config L S M → Config L S M → Prop
  | act {l l' f program workers} : f l = some l' → Step ⟨l, .act f :: program, workers⟩ ⟨l', program, workers⟩
  | send {l t m program workers} : t < workers.length →
      Step ⟨l, .send t m :: program, workers⟩ ⟨l, program, workers.modify t (Worker.push m)⟩
  | recv {l program workers t w} : workers[t]? = some w → w.mailbox ≠ [] →
      Step ⟨l, program, workers⟩ ⟨l, program, workers.modify t (Worker.recv handle)⟩

abbrev Steps : Config L S M → Config L S M → Prop := Relation.ReflTransGen (Step handle)

/-- The actions in order, each message handled at once. -/
def settle : List (Action L M) → L → List S → Option (L × List S)
  | [], l, states => some (l, states)
  | .act f :: program, l, states => (f l).bind (fun l' => settle program l' states)
  | .send t m :: program, l, states =>
    if t < states.length then settle program l (states.modify t (handle · m)) else none

def Config.outcome (c : Config L S M) : Option (L × List S) :=
  settle handle c.program c.leader (c.workers.map (Worker.drained handle))

/-- The leader is through and every mailbox is empty. -/
def Config.Done (c : Config L S M) : Prop := c.program = [] ∧ ∀ w ∈ c.workers, w.mailbox = []

theorem map_modify {A B : Type u} (f : A → B) (g : A → A) (h : B → B) (t : Nat) (as : List A)
    (hfg : ∀ a, f (g a) = h (f a)) : (as.modify t g).map f = (as.map f).modify t h := by
  apply ext_getElem?
  intro i
  rw [getElem?_map, getElem?_modify, getElem?_modify, getElem?_map]
  cases as[i]? with
  | none => rfl
  | some => by_cases ht : t = i <;> simp [ht, hfg]

theorem Step.outcome_eq (h : Step handle c c') : c'.outcome handle = c.outcome handle := by
  cases h with
  | act hf => simp [Config.outcome, settle, hf]
  | @send l t m program workers ht =>
    simp only [Config.outcome, settle, length_map, ht, if_true]
    rw [map_modify _ _ (handle · m) _ _ (drained_push handle m)]
  | recv =>
    simp only [Config.outcome]
    rw [map_modify _ _ id _ _ (drained_recv handle), modify_id]

/-- Interleaving changes nothing about the outcome. -/
theorem Steps.outcome_eq (h : Steps handle c c') : c'.outcome handle = c.outcome handle := by
  induction h with
  | refl => rfl
  | tail _ hstep ih => rw [hstep.outcome_eq, ih]

theorem Config.Done.outcome_eq (h : c.Done) : c.outcome handle = some (c.leader, c.workers.map Worker.state) := by
  rw [Config.outcome, h.1, settle]
  have hstates : c.workers.map (Worker.drained handle) = c.workers.map Worker.state := by
    apply map_congr_left
    intro w hw
    rw [Worker.drained, h.2 w hw, foldl_nil]
  rw [hstates]

/-- A configuration with an outcome is through or can go on. -/
theorem Config.progress (h : c.outcome handle = some r) : c.Done ∨ ∃ c', Step handle c c' := by
  obtain ⟨l, program, workers⟩ := c
  cases program with
  | nil =>
    by_cases hall : ∀ w ∈ workers, w.mailbox = []
    · exact Or.inl ⟨rfl, hall⟩
    · push Not at hall
      obtain ⟨w, hw, hne⟩ := hall
      obtain ⟨t, ht⟩ := mem_iff_getElem?.mp hw
      exact Or.inr ⟨_, .recv ht hne⟩
  | cons a =>
    right
    cases a with
    | act =>
      obtain ⟨l', hf, -⟩ := Option.bind_eq_some_iff.mp h
      exact ⟨_, .act hf⟩
    | send =>
      simp only [Config.outcome, settle, length_map] at h
      split_ifs at h with ht
      exact ⟨_, .send ht⟩

/-- What is left to do: a send becomes one receive. -/
def Config.work (c : Config L S M) : Nat := 2 * c.program.length + (c.workers.map (fun w => w.mailbox.length)).sum

theorem sum_modify {A : Type u} (f : A → Nat) (g : A → A) {t : Nat} {as : List A} {a : A}
    (ht : as[t]? = some a) : ((as.modify t g).map f).sum + f a = (as.map f).sum + f (g a) := by
  induction as generalizing t with
  | nil => simp at ht
  | cons b as ih =>
    cases t with
    | zero =>
      simp only [getElem?_cons_zero, Option.some.injEq] at ht
      subst ht
      simp only [modify_zero_cons, map_cons, sum_cons]
      omega
    | succ t =>
      have := ih (t := t) (by simpa using ht)
      simp only [modify_succ_cons, map_cons, sum_cons]
      omega

/-- Every step does some of the work, so no run goes on for ever. -/
theorem Step.work_lt (h : Step handle c c') : c'.work < c.work := by
  cases h with
  | act =>
    simp only [Config.work, length_cons]
    omega
  | @send l t m program workers ht =>
    have hsum := sum_modify (fun w : Worker S M => w.mailbox.length) (Worker.push m) (getElem?_eq_getElem ht)
    simp only [Worker.push, length_append, length_singleton] at hsum
    simp only [Config.work, length_cons]
    omega
  | @recv l program workers t w hw hne =>
    have hsum := sum_modify (fun w : Worker S M => w.mailbox.length) (Worker.recv handle) hw
    obtain ⟨m, rest, hm⟩ := exists_cons_of_ne_nil hne
    have hlen : (w.recv handle).mailbox.length + 1 = w.mailbox.length := by
      simp [Worker.recv, hm]
    simp only [Config.work]
    omega

end Run

end Actors
