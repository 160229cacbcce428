import Mathlib.Data.Nat.ModEq

/-!
The clock sweep over the buffers: the hand goes on past the size of the pool without a lock, and the threads
that have crossed a multiple of the size fold it back under the strategy lock.
-/
namespace ClockSweep

open List Nat
open Function (update update_apply)

/-- Where a thread is in `ClockSweepTick`: it waits for the lock, or is about to swap. -/
inductive Pc
  | idle
  | crossed (expected : Nat)
  | locked (expected : Nat)

structure State (τ : Type) where
  nextVictimBuffer : Nat
  completePasses : Nat
  lock : Option τ
  pc : τ → Pc

/-- Where the number that the fetch-and-add returns leads. -/
def afterAdd (n victim : Nat) : Pc :=
  if n ≤ victim ∧ victim % n = 0 then .crossed ((victim + 1) % 2 ^ 32) else .idle

def buffer (n victim : Nat) : Nat := if n ≤ victim then victim % n else victim

variable {τ : Type} [DecidableEq τ] {n : Nat}

def State.to (s : State τ) (t : τ) (pc : Pc) : State τ := { s with pc := update s.pc t pc }

/-- The atomic steps of a thread, with the buffer of a tick and the hand that a swap has found. -/
inductive Step (n : Nat) (s : State τ) (t : τ) : List Nat → List Nat → State τ → Prop
  | tick (hpc : s.pc t = .idle) : Step n s t [buffer n s.nextVictimBuffer] []
      ({ s with nextVictimBuffer := (s.nextVictimBuffer + 1) % 2 ^ 32 }.to t (afterAdd n s.nextVictimBuffer))
  | acquire (hpc : s.pc t = .crossed e) (hfree : s.lock = none) :
      Step n s t [] [] ({ s with lock := some t }.to t (.locked e))
  | fold (hpc : s.pc t = .locked s.nextVictimBuffer) : Step n s t [] [s.nextVictimBuffer]
      (State.to ⟨s.nextVictimBuffer % n, (s.completePasses + 1) % 2 ^ 32, none, s.pc⟩ t .idle)
  -- somebody else has folded the hand
  | leave (hpc : s.pc t = .locked e) (hne : s.nextVictimBuffer ≠ e) (hlow : s.nextVictimBuffer < n) :
      Step n s t [] [] ({ s with lock := none }.to t .idle)
  | again (hpc : s.pc t = .locked e) (hne : s.nextVictimBuffer ≠ e) (hhigh : n ≤ s.nextVictimBuffer) :
      Step n s t [] [] (s.to t (.locked s.nextVictimBuffer))

/-- The runs, with the buffers of the ticks in the order of their fetch-and-adds, and the hands of the swaps. -/
inductive Run (n : Nat) : List Nat → List Nat → State τ → Prop
  | init : Run n [] [] ⟨0, 0, none, fun _ => .idle⟩
  | step (t : τ) (h : Run n visits folds s) (hstep : Step n s t v f s') : Run n (visits ++ v) (folds ++ f) s'

/-- What a thread takes for the hand is a whole pass or more. -/
def Pc.High (n : Nat) : Pc → Prop
  | .idle => True
  | .crossed e | .locked e => n ≤ e

/-- The passes are right as long as no swap takes back two of them. -/
structure Inv (n : Nat) (visits folds : List Nat) (s : State τ) : Prop where
  visits_eq : visits = (List.range visits.length).map (· % n)
  hand_le : s.nextVictimBuffer ≤ visits.length
  hand_mod : s.nextVictimBuffer % n = visits.length % n
  high : ∀ t, (s.pc t).High n
  passes : (∀ hand ∈ folds, hand < 2 * n) → s.completePasses * n + s.nextVictimBuffer = visits.length

variable {s : State τ} {visits folds : List Nat} {t : τ}

theorem buffer_eq : buffer n victim = victim % n := by
  rw [buffer]
  split_ifs with h
  · rfl
  · rw [mod_eq_of_lt (Nat.lt_of_not_le h)]

theorem high_to (h : ∀ t, (s.pc t).High n) (hp : p.High n) (u : τ) : ((s.to t p).pc u).High n := by
  simp only [State.to, update_apply]
  split_ifs
  · exact hp
  · exact h u

theorem Inv.tick (h : Inv n visits folds s) (hlt : visits.length + 1 < 2 ^ 32) :
    Inv n (visits ++ [buffer n s.nextVictimBuffer]) folds
      ({ s with nextVictimBuffer := (s.nextVictimBuffer + 1) % 2 ^ 32 }.to t (afterAdd n s.nextVictimBuffer)) := by
  have hle := h.hand_le
  have hnext : (s.nextVictimBuffer + 1) % 2 ^ 32 = s.nextVictimBuffer + 1 := mod_eq_of_lt (by omega)
  have hhigh : (afterAdd n s.nextVictimBuffer).High n := by
    rw [afterAdd, hnext]
    split_ifs with hcross
    · exact hcross.1.trans (le_succ _)
    · trivial
  rw [buffer_eq, h.hand_mod, hnext]
  refine ⟨?_, ?_, ?_, high_to h.high hhigh, fun hall => ?_⟩ <;> rw [length_append, length_singleton]
  · rw [range_succ, map_append, ← h.visits_eq]
    rfl
  · exact succ_le_succ hle
  · exact (Nat.ModEq.add_right 1 h.hand_mod :)
  · exact congrArg (· + 1) (h.passes hall)

theorem Inv.fold (h : Inv n visits folds s) (hn : 0 < n) (hlt : visits.length < 2 ^ 32)
    (hhigh : n ≤ s.nextVictimBuffer) : Inv n visits (folds ++ [s.nextVictimBuffer])
      (State.to ⟨s.nextVictimBuffer % n, (s.completePasses + 1) % 2 ^ 32, none, s.pc⟩ t .idle) := by
  refine ⟨h.visits_eq, (mod_le _ _).trans h.hand_le, (mod_mod _ _).trans h.hand_mod,
    high_to h.high trivial, fun hall => ?_⟩
  obtain ⟨hbefore, hone⟩ := forall_mem_append.mp hall
  have hpasses := h.passes hbefore
  have hrest : s.nextVictimBuffer % n = s.nextVictimBuffer - n := by
    rw [mod_eq_sub_mod hhigh, mod_eq_of_lt]
    have := hone _ (mem_singleton_self _)
    omega
  have hle : s.completePasses ≤ s.completePasses * n := Nat.le_mul_of_pos_right _ hn
  show (s.completePasses + 1) % 2 ^ 32 * n + s.nextVictimBuffer % n = _
  rw [mod_eq_of_lt (by omega), hrest, succ_mul]
  omega

theorem Run.inv (h : Run n visits folds s) (hn : 0 < n) (hlt : visits.length < 2 ^ 32) : Inv n visits folds s := by
  induction h with
  | init => exact ⟨rfl, le_rfl, rfl, fun _ => trivial, fun _ => Nat.zero_mul n⟩
  | @step visits folds s v f s' t h hstep ih =>
    rw [length_append] at hlt
    have hinv := ih (by omega)
    have hhigh := hinv.high t
    cases hstep with
    | tick =>
      rw [append_nil]
      exact hinv.tick hlt
    | fold hpc =>
      rw [hpc] at hhigh
      rw [append_nil]
      exact hinv.fold hn (by omega) hhigh
    | acquire hpc =>
      rw [hpc] at hhigh
      rw [append_nil, append_nil]
      exact { hinv with high := high_to hinv.high (p := .locked _) hhigh }
    | leave =>
      rw [append_nil, append_nil]
      exact { hinv with high := high_to hinv.high (p := .idle) trivial }
    | again _ _ hge =>
      rw [append_nil, append_nil]
      exact { hinv with high := high_to hinv.high (p := .locked _) hge }

end ClockSweep
