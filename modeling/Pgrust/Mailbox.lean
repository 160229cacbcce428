import Mathlib.Data.Finset.Card

/-!
The mailbox: a queue under a mutex, handles that are counted, and two lots of parked threads. A thread that
cannot go on reads its lot's epoch under the mutex, lets the mutex go and parks, unless the epoch has moved
since; whoever changes what the others wait for bumps the epoch afterwards. Threads interleave between any two
critical sections or accesses to an epoch. An epoch does not wrap around.
-/
namespace Mailbox

open List
open Function (update update_self update_of_ne)

/-- The two ends. A lot has the name of the end that parks there: `not_full` is the senders' and `not_empty`
the receivers'. -/
inductive Side
  | sender
  | receiver
  deriving DecidableEq

def Side.other : Side → Side
  | .sender => .receiver
  | .receiver => .sender

@[simp] theorem Side.other_other (side : Side) : side.other.other = side := by cases side <;> rfl

/-- A call on a handle: `send` and `try_send` have a value, `recv` and `try_recv` none; `send` and `recv` may
park. -/
structure Call (α : Type) where
  value : Option α
  blocks : Bool
  handle : ℕ

def Call.side (c : Call α) : Side := if c.value.isSome then .sender else .receiver

/-- Where a thread stands: outside, at the top of a call's loop, in `park` (before the lot's mutex, behind it,
after the epoch was as `seen`, in the wait), or in `wake_all` (before the bump, before the lot's mutex, before
the notification). -/
inductive Pc (α : Type)
  | idle
  | run (c : Call α)
  | park (c : Call α) (seen : ℕ)
  | locked (c : Call α) (seen : ℕ)
  | matched (c : Call α) (seen : ℕ)
  | asleep (c : Call α) (seen : ℕ)
  | wake (side : Side)
  | bumped (side : Side)
  | counted (side : Side)

/-- The thread holds the mutex of a lot. -/
def Pc.Holds (side : Side) : Pc α → Prop
  | .locked c _ | .matched c _ => c.side = side
  | _ => False

/-- A call that has not returned borrows its handle. -/
def Pc.Uses (side : Side) (handle : ℕ) : Pc α → Prop
  | .run c | .park c _ | .locked c _ | .matched c _ | .asleep c _ => c.side = side ∧ c.handle = handle
  | _ => False

/-- A notification ends the waits on a lot. -/
def Pc.notify (side : Side) : Pc α → Pc α
  | .asleep c seen => if c.side = side then .park c seen else .asleep c seen
  | pc => pc

/-- `count` are the fields `senders` and `receivers`, `handles` the live handles. -/
structure State (τ α : Type) where
  queue : List α
  count : Side → ℕ
  handles : Side → Finset ℕ
  epoch : Side → ℕ
  pc : τ → Pc α

/-- `mailbox` makes one handle for each end. -/
def State.init : State τ α := ⟨[], fun _ => 1, fun _ => {0}, fun _ => 0, fun _ => .idle⟩

def State.Room (cap : Option ℕ) (s : State τ α) : Prop := ∀ c ∈ cap, s.queue.length < c

/-- Room for a sender, a message for a receiver. -/
def State.Offers (cap : Option ℕ) (s : State τ α) : Side → Prop
  | .sender => s.Room cap
  | .receiver => s.queue ≠ []

/-- What a call waits for. -/
def State.Ready (cap : Option ℕ) (s : State τ α) (side : Side) : Prop := s.Offers cap side ∨ s.count side.other = 0

/-- No thread holds the mutex of the lot. -/
def State.Free (s : State τ α) (side : Side) : Prop := ∀ t, ¬ (s.pc t).Holds side

/-- What a step shows: a message that was put into the queue, one handed back as no receiver is left, one
received, or that the queue is empty for good. -/
inductive Event (α : Type)
  | sent (value : α)
  | refused (value : α)
  | received (value : α)
  | drained
  | silent

def Event.enters : Event α → List α
  | .sent value => [value]
  | _ => []

def Event.leaves : Event α → List α
  | .received value => [value]
  | _ => []

variable {τ α : Type} [DecidableEq τ]

def State.to (s : State τ α) (t : τ) (pc : Pc α) : State τ α := { s with pc := update s.pc t pc }

/-- The steps of a thread. -/
inductive Step (cap : Option ℕ) (s : State τ α) (t : τ) : Event α → State τ α → Prop
  | call (c) (hpc : s.pc t = .idle) (hlive : c.handle ∈ s.handles c.side) : Step cap s t .silent (s.to t (.run c))
  -- the critical section of a call
  | refuse (hpc : s.pc t = .run c) (hv : c.value = some v) (hnone : s.count .receiver = 0) :
    Step cap s t (.refused v) (s.to t .idle)
  | push (hpc : s.pc t = .run c) (hv : c.value = some v) (hsome : s.count .receiver ≠ 0) (hroom : s.Room cap) :
    Step cap s t (.sent v) ({ s with queue := s.queue ++ [v] }.to t (.wake .receiver))
  | pop (hpc : s.pc t = .run c) (hv : c.value = none) (hq : s.queue = v :: rest) :
    Step cap s t (.received v) ({ s with queue := rest }.to t (.wake .sender))
  | drain (hpc : s.pc t = .run c) (hv : c.value = none) (hq : s.queue = []) (hnone : s.count .sender = 0) :
    Step cap s t .drained (s.to t .idle)
  | giveUp (hpc : s.pc t = .run c) (htry : c.blocks = false) (hnot : ¬ s.Ready cap c.side) :
    Step cap s t .silent (s.to t .idle)
  | capture (hpc : s.pc t = .run c) (hblocks : c.blocks = true) (hnot : ¬ s.Ready cap c.side) :
    Step cap s t .silent (s.to t (.park c (s.epoch c.side)))
  -- `park`
  | lock (hpc : s.pc t = .park c seen) (hfree : s.Free c.side) : Step cap s t .silent (s.to t (.locked c seen))
  | moved (hpc : s.pc t = .locked c seen) (hne : seen ≠ s.epoch c.side) : Step cap s t .silent (s.to t (.run c))
  | same (hpc : s.pc t = .locked c seen) (heq : seen = s.epoch c.side) :
    Step cap s t .silent (s.to t (.matched c seen))
  | wait (hpc : s.pc t = .matched c seen) : Step cap s t .silent (s.to t (.asleep c seen))
  | spurious (hpc : s.pc t = .asleep c seen) : Step cap s t .silent (s.to t (.park c seen))
  -- `wake_all`
  | bump (hpc : s.pc t = .wake side) :
    Step cap s t .silent ({ s with epoch := update s.epoch side (s.epoch side + 1) }.to t (.bumped side))
  | count (hpc : s.pc t = .bumped side) (hfree : s.Free side) : Step cap s t .silent (s.to t (.counted side))
  | notify (hpc : s.pc t = .counted side) :
    Step cap s t .silent ({ s with pc := fun i => (s.pc i).notify side }.to t .idle)
  -- handles
  | clone (side handle new) (hpc : s.pc t = .idle) (hlive : handle ∈ s.handles side) (hnew : new ∉ s.handles side) :
    Step cap s t .silent { s with
        count := update s.count side (s.count side + 1)
        handles := update s.handles side (insert new (s.handles side)) }
  | drop (side handle) (hpc : s.pc t = .idle) (hlive : handle ∈ s.handles side)
    (hunused : ∀ i, ¬ (s.pc i).Uses side handle) :
    Step cap s t .silent ({ s with
        count := update s.count side (s.count side - 1)
        handles := update s.handles side ((s.handles side).erase handle) }.to t
        (if s.count side - 1 = 0 then .wake side.other else .idle))

/-- A run from a new mailbox, with what its steps have shown. -/
inductive Run (cap : Option ℕ) : List (Event α) → State τ α → Prop
  | init : Run cap [] .init
  | step (t) (h : Run cap es s) (hstep : Step cap s t e s') : Run cap (es ++ [e]) s'

variable {s s' : State τ α} {t : τ} {e : Event α}

section Watched

def State.Wakes (s : State τ α) (pc : Pc α) : Prop := ∃ t, s.pc t = pc

/-- As long as the epoch is as it was seen, what the thread waits for comes with a bump ahead. -/
def State.Armed (cap : Option ℕ) (s : State τ α) (side : Side) (seen : ℕ) : Prop :=
  seen ≤ s.epoch side ∧ (seen = s.epoch side → s.Ready cap side → s.Wakes (.wake side))

/-- Once the epoch has moved, a thread that has passed its test or sleeps has a notification ahead. -/
def State.Watched (cap : Option ℕ) (s : State τ α) : Pc α → Prop
  | .park c seen | .locked c seen => s.Armed cap c.side seen
  | .matched c seen => s.Armed cap c.side seen ∧ (seen ≠ s.epoch c.side → s.Wakes (.bumped c.side))
  | .asleep c seen => s.Armed cap c.side seen ∧
    (seen ≠ s.epoch c.side → s.Wakes (.bumped c.side) ∨ s.Wakes (.counted c.side))
  | _ => True

variable (hstep : Step cap s t e s')
include hstep

/-- A step of one thread moves another only out of its sleep. -/
theorem Step.others (hne : i ≠ t) :
    s'.pc i = s.pc i ∨ ∃ c seen, s.pc i = .asleep c seen ∧ s'.pc i = .park c seen := by
  cases hstep with
  | @notify side =>
    simp only [State.to, update_of_ne hne]
    cases s.pc i with
    | asleep c => by_cases hc : c.side = side <;> simp [Pc.notify, hc]
    | _ => exact .inl rfl
  | clone => exact .inl rfl
  | _ => exact .inl (update_of_ne hne ..)

theorem Step.wakes (hp : ∀ c seen, p ≠ .asleep c seen) (h : s.Wakes p) : s'.Wakes p ∨ s.pc t = p := by
  obtain ⟨i, rfl⟩ := h
  by_cases hi : i = t
  · exact .inr (by rw [hi])
  · exact .inl ⟨i, (hstep.others hi).resolve_right (fun ⟨c, seen, hc, _⟩ => hp c seen hc)⟩

theorem Step.epoch_eq (side : Side) : s'.epoch side = s.epoch side ∧ s.pc t ≠ .wake side ∨
    s'.epoch side = s.epoch side + 1 ∧ s'.pc t = .bumped side := by
  cases hstep with
  | @bump side' hpc => by_cases hside : side = side' <;> simp [State.to, hpc, hside, Ne.symm]
  | _ => simp_all [State.to]

/-- Where others become ready, the thread goes on to wake them. -/
theorem Step.ready_of (h : s'.Ready cap side) : s.Ready cap side ∨ s'.pc t = .wake side := by
  cases hstep with
  | push =>
    cases side with
    | sender =>
      refine .inl (h.imp_left (fun hroom c hc => ?_))
      have := hroom c hc
      simp only [State.to, length_append] at this
      omega
    | receiver => exact .inr (update_self ..)
  | pop _ _ hq =>
    cases side with
    | sender => exact .inr (update_self ..)
    | receiver => exact .inl (.inl (by simp [State.Offers, hq]))
  | clone side' =>
    refine .inl (h.imp_right (fun hzero => ?_))
    by_cases hside : side.other = side' <;> simp_all
  | drop side' =>
    obtain rfl | hside := eq_or_ne side.other side'
    · by_cases hlast : s.count side.other - 1 = 0
      · exact .inr (by simp [State.to, hlast])
      · exact .inl (h.imp_right (fun hzero => absurd (by simpa [State.to] using hzero) hlast))
    · exact .inl (h.imp_right (by simp [State.to, hside]))
  | _ => exact .inl h

theorem Step.of_bumped (hpc : s.pc t = .bumped side) : s'.pc t = .counted side ∧ s'.Free side := by
  cases hstep with
  | count hpc' hfree =>
    cases hpc.symm.trans hpc'
    exact ⟨update_self .., (Function.forall_update_iff s.pc (fun _ pc => ¬ pc.Holds side)).mpr ⟨id, fun i _ => hfree i⟩⟩
  | _ => simp_all

theorem Step.of_counted (hpc : s.pc t = .counted side) (hi : s'.pc i = .asleep c seen) : c.side ≠ side := by
  cases hstep with
  | notify hpc' =>
    cases hpc.symm.trans hpc'
    by_cases hit : i = t
    · simp [State.to, hit] at hi
    · simp only [State.to, update_of_ne hit] at hi
      cases h : s.pc i with
      | asleep c' =>
        rw [h, Pc.notify] at hi
        split_ifs at hi with hc
        cases hi
        exact hc
      | _ => simp [h, Pc.notify] at hi
  | _ => simp_all

/-- What the thread itself does. -/
theorem Step.mine (h : s.Watched cap (s.pc t)) : s.Watched cap (s'.pc t) := by
  cases hstep with
  | capture hpc _ hnot => simp [State.to, State.Watched, State.Armed, hnot]
  | lock hpc | spurious hpc | same hpc | wait hpc => simp_all [State.to, State.Watched]
  | clone => exact h
  | drop => simp only [State.to, update_self]; split_ifs <;> trivial
  | _ => simp [State.to, State.Watched]

theorem Step.armed (h : s.Armed cap side seen) : s'.Armed cap side seen := by
  obtain ⟨hle, hwake⟩ := h
  rcases hstep.epoch_eq side with ⟨heq, hne⟩ | ⟨heq, -⟩
  · rw [State.Armed, heq]
    refine ⟨hle, fun hseen hready => ?_⟩
    rcases hstep.ready_of hready with hready | hnew
    · exact (hstep.wakes (by simp) (hwake hseen hready)).resolve_right hne
    · exact ⟨t, hnew⟩
  · exact ⟨by omega, by omega⟩

theorem Step.watched (h : ∀ i, s.Watched cap (s.pc i)) (i : τ) : s'.Watched cap (s'.pc i) := by
  have hi : s.Watched cap (s'.pc i) := by
    by_cases hit : i = t
    · rw [hit]
      exact hstep.mine (h t)
    · have hold := h i
      rcases hstep.others hit with heq | ⟨c, seen, hpc, heq⟩
      · rw [heq]
        exact hold
      · rw [hpc] at hold
        rw [heq]
        exact hold.1
  cases hpc : s'.pc i with
  | park | locked =>
    rw [hpc] at hi
    exact hstep.armed hi
  | matched c seen =>
    rw [hpc] at hi
    refine ⟨hstep.armed hi.1, fun hne => ?_⟩
    rcases hstep.epoch_eq c.side with ⟨heq, -⟩ | ⟨-, hnew⟩
    · -- the lot's mutex is held, so no wake-up gets past it
      rw [heq] at hne
      refine (hstep.wakes (by simp) (hi.2 hne)).resolve_right (fun hb => (hstep.of_bumped hb).2 i ?_)
      rw [hpc]
      rfl
    · exact ⟨t, hnew⟩
  | asleep c seen =>
    rw [hpc] at hi
    refine ⟨hstep.armed hi.1, fun hne => ?_⟩
    rcases hstep.epoch_eq c.side with ⟨heq, -⟩ | ⟨-, hnew⟩
    · rw [heq] at hne
      rcases hi.2 hne with hw | hw
      · exact (hstep.wakes (by simp) hw).imp_right (fun hb => ⟨t, (hstep.of_bumped hb).1⟩)
      · exact .inr ((hstep.wakes (by simp) hw).resolve_right (fun hc => hstep.of_counted hc hpc rfl))
    · exact .inl ⟨t, hnew⟩
  | _ => trivial

end Watched

/-- What holds between two steps of a run. -/
structure Inv (cap : Option ℕ) (es : List (Event α)) (s : State τ α) : Prop where
  order : es.flatMap Event.leaves ++ s.queue = es.flatMap Event.enters
  fits : ∀ c ∈ cap, s.queue.length ≤ c
  count : ∀ side, s.count side = (s.handles side).card
  watched : ∀ t, s.Watched cap (s.pc t)

omit [DecidableEq τ] in
theorem Inv.init : Inv cap [] (State.init : State τ α) where
  order := rfl
  fits _ _ := Nat.zero_le _
  count _ := rfl
  watched _ := trivial

/-- The messages, the bound and the handles. -/
theorem Inv.ledger (h : Inv cap es s) (hstep : Step cap s t e s') :
    es.flatMap Event.leaves ++ (e.leaves ++ s'.queue) = es.flatMap Event.enters ++ e.enters ∧
      (∀ c ∈ cap, s'.queue.length ≤ c) ∧ ∀ side, s'.count side = (s'.handles side).card := by
  rw [← h.order, append_assoc, append_cancel_left_eq]
  have hfits := h.fits
  have hcount := h.count
  cases hstep with
  | push _ _ _ hroom =>
    refine ⟨rfl, fun c hc => ?_, hcount⟩
    rw [State.to, length_append]
    exact hroom c hc
  | pop _ _ hq =>
    rw [hq] at hfits ⊢
    exact ⟨(append_nil _).symm, fun c hc => Nat.le_of_succ_le (hfits c hc), hcount⟩
  | clone side handle new _ _ hnew =>
    refine ⟨(append_nil _).symm, hfits, fun side' => ?_⟩
    obtain rfl | hside := eq_or_ne side' side
    · simp [hnew, hcount]
    · simp [hside, hcount]
  | drop side handle _ hlive =>
    refine ⟨(append_nil _).symm, hfits, fun side' => ?_⟩
    obtain rfl | hside := eq_or_ne side' side
    · simp [State.to, hlive, hcount]
    · simp [State.to, hside, hcount]
  | _ => exact ⟨(append_nil _).symm, hfits, hcount⟩

theorem Run.inv (h : Run cap es s) : Inv cap es s := by
  induction h with
  | init => exact .init
  | step t _ hstep ih =>
    obtain ⟨horder, hfits, hcount⟩ := ih.ledger hstep
    exact ⟨by simpa using horder, hfits, hcount, hstep.watched ih.watched⟩

/-- The mailbox is a queue: messages leave it in the order in which they entered, a bound holds, an end is
reported closed only when it is, and a thread that sleeps though it could go on is about to be woken. -/
theorem mailbox_queue (h : Run cap es s) :
    es.flatMap Event.leaves ++ s.queue = es.flatMap Event.enters ∧ (∀ c ∈ cap, s.queue.length ≤ c) ∧
      (∀ t s', Step cap s t .drained s' →
        s.handles .sender = ∅ ∧ es.flatMap Event.leaves = es.flatMap Event.enters) ∧
      (∀ t v s', Step cap s t (.refused v) s' → s.handles .receiver = ∅) ∧
      ∀ t c seen, s.pc t = .asleep c seen → s.Ready cap c.side →
        ∃ i, s.pc i = .wake c.side ∨ s.pc i = .bumped c.side ∨ s.pc i = .counted c.side := by
  have hinv := h.inv
  have hgone (side : Side) (hzero : s.count side = 0) : s.handles side = ∅ := by
    rw [hinv.count] at hzero
    exact Finset.card_eq_zero.mp hzero
  refine ⟨hinv.order, hinv.fits, fun t s' hstep => ?_, fun t v s' hstep => ?_, fun t c seen hpc hready => ?_⟩
  · cases hstep with
    | drain _ _ hq hnone =>
      have horder := hinv.order
      rw [hq, append_nil] at horder
      exact ⟨hgone _ hnone, horder⟩
  · cases hstep with
    | refuse _ _ hnone => exact hgone _ hnone
  · have hwatched := hinv.watched t
    rw [hpc] at hwatched
    by_cases heq : seen = s.epoch c.side
    · obtain ⟨i, hi⟩ := hwatched.1.2 heq hready
      exact ⟨i, .inl hi⟩
    · rcases hwatched.2 heq with ⟨i, hi⟩ | ⟨i, hi⟩
      · exact ⟨i, .inr (.inl hi)⟩
      · exact ⟨i, .inr (.inr hi)⟩

theorem mailbox_queue_full : ∃ s : State Unit ℕ, Run (some 1) [.silent, .sent 7] s ∧ s.queue.length ≤ 1 := by
  have h : Run (some 1) [.silent, .sent 7] _ :=
    .step () (.step () .init (.call ⟨some 7, true, 0⟩ rfl (by decide)))
      (.push rfl rfl (by decide) (by simp [State.Room, State.to, State.init]))
  exact ⟨_, h, (mailbox_queue h).2.1 1 rfl⟩

end Mailbox
