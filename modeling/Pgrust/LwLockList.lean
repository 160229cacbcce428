import Pgrust.LwLockOwners

/-!
The wait list against the places of the processes: who is on it, in which mode, what `lwWaiting`
says of those that are not, and who has yet to be told that it is off the list.
-/
namespace LwLock

open LwWord List
open Function (update forall_update_iff update_apply update_of_ne update_self)

variable {ι : Type}

/-! The walks over the wait list. -/

section

variable (mode : ι → WaitMode)
include mode

/-- Everybody on the list is either taken off or left. -/
theorem scanWaiters_perm (woke : Bool) (waiters : List ι) :
    ((scanWaiters mode woke waiters).wakeup ++ (scanWaiters mode woke waiters).rest).Perm waiters := by
  induction waiters generalizing woke with
  | nil => exact .refl _
  | cons cur next ih =>
    rw [scanWaiters]
    split
    · exact perm_middle.trans ((ih woke).cons cur)
    · split
      · exact .refl _
      · exact (ih _).cons cur

theorem scanUntilFree_perm (waiters : List ι) :
    ((scanUntilFree mode waiters).wakeup ++ (scanUntilFree mode waiters).rest).Perm waiters := by
  rw [scanUntilFree, takeWhile_append_dropWhile]

/-- A walk that has woken somebody says so. -/
theorem scanWaiters_woke (waiters : List ι) : (scanWaiters mode true waiters).wokeupSomebody = true := by
  induction waiters with
  | nil => rfl
  | cons cur next ih =>
    rw [scanWaiters]
    split
    · exact ih
    · split
      · rfl
      · exact ih

/-- Nobody is left behind unless somebody who wants the lock is woken. -/
theorem scanWaiters_rest (waiters : List ι)
    (hleft : (scanWaiters mode false waiters).rest ≠ []) :
    (scanWaiters mode false waiters).wokeupSomebody = true := by
  induction waiters with
  | nil => exact absurd rfl hleft
  | cons cur next ih =>
    rw [scanWaiters, if_neg (by simp)] at hleft ⊢
    split at hleft
    · rename_i hexcl
      rw [if_pos hexcl]
    · rename_i hexcl
      rw [if_neg hexcl]
      cases hfree : mode cur != .waitUntilFree with
      | true => exact scanWaiters_woke mode next
      | false =>
        rw [hfree] at hleft
        exact ih hleft

/-- Whoever counts as woken somebody was taken off the list and wants the lock. -/
theorem scanWaiters_wants (waiters : List ι)
    (hwoke : (scanWaiters mode false waiters).wokeupSomebody = true) :
    ∃ j ∈ (scanWaiters mode false waiters).wakeup, mode j ≠ .waitUntilFree := by
  induction waiters with
  | nil => cases hwoke
  | cons cur next ih =>
    rw [scanWaiters, if_neg (by simp)] at hwoke ⊢
    split at hwoke
    · rename_i hexcl
      rw [if_pos hexcl]
      refine ⟨cur, mem_cons_self, ?_⟩
      rw [hexcl]
      nofun
    · rename_i hexcl
      rw [if_neg hexcl]
      cases hfree : mode cur != .waitUntilFree with
      | true => exact ⟨cur, mem_cons_self, by simpa using hfree⟩
      | false =>
        rw [hfree] at hwoke
        obtain ⟨j, hmem, hj⟩ := ih hwoke
        exact ⟨j, mem_cons_of_mem cur hmem, hj⟩

end

/-! Where a process is, with respect to the wait list. -/

def Ret.queuedCall : Ret → Option Call
  | backedOut c .queued _ => some c
  | _ => none

/-- The call of a process that has put itself on the list and has not yet seen how it left it. -/
def Pc.queuedCall : Pc ι → Option Call
  | queueUnlock c _ | attempt c .queued _ | cas c .queued _ _ | backout c .queued _ | sleep c _
  | sleepCheck c _ | dequeue c _ | dequeueList c _ => some c
  | forceOk oldval _ | checkVar oldval .queued _ => some (.forVar oldval)
  | wakeLock r | wakeScan r | wakeCas r _ _ | wakeFlag r _ | wakePost r _ _ => r.queuedCall
  | _ => none

/-- The process has taken itself off the list and has yet to say so. -/
def Pc.left : Pc ι → Bool
  | dequeueFlag _ _ true | dequeueUnlock _ _ true | dequeueClear _ _ => true
  | _ => false

/-- The process was taken off the list by another one and absorbs the wake-up. -/
def Pc.absorbs : Pc ι → Bool
  | dequeueFlag _ _ false | dequeueUnlock _ _ false | dequeueOk _ _ | dequeueSleep _ _ _
  | dequeueCheck _ _ _ => true
  | _ => false

/-- The processes that are off the list and have yet to be told by this one. -/
def Pc.wakeup : Pc ι → List ι
  | wakeCas _ wakeup _ | wakeFlag _ wakeup | wakePost _ _ wakeup | updateUnlock wakeup => wakeup
  | _ => []

variable {m : Mem ι} {i : ι} {p p' : Pc ι} {e : Effect ι}

/-! The steps that change the wait list or somebody's `lwWaiting`. -/

theorem Move.push_inv (hmove : Move m i p (.push mode) p') :
    ∃ c x, p = .queuePush c x ∧ p' = .queueUnlock c x ∧ mode = c.waitMode := by
  cases hmove with
  | queuePush c x => exact ⟨c, x, rfl, rfl, rfl⟩

theorem Move.delete_inv (hmove : Move m i p .delete p') :
    ∃ c x, p = .dequeueList c x ∧ p' = .dequeueFlag c x true ∧ m.lwWaiting i = .waiting := by
  cases hmove with
  | dequeueOn c x h => exact ⟨c, x, rfl, rfl, h⟩

theorem Move.takeOff_inv (hmove : Move m i p (.takeOff scan) p') :
    (∃ r, p = .wakeScan r ∧ p' = .wakeCas r scan.wakeup (!scan.wokeupSomebody) ∧
      scan = scanWaiters m.lwWaitMode false m.waiters) ∨
    (p = .updateScan ∧ p' = .updateUnlock scan.wakeup ∧
      scan = scanUntilFree m.lwWaitMode m.waiters) := by
  cases hmove with
  | wakeScan r scan h => exact .inl ⟨r, rfl, rfl, h⟩
  | updateScan scan h => exact .inr ⟨rfl, rfl, h⟩

variable {j : ι} {c : Call}

theorem Move.notWaiting_inv (hmove : Move m i p (.notWaiting j) p') :
    (j = i ∧ ∃ c x, p = .dequeueClear c x ∧ p' = .repay c.mode x) ∨
    ∃ r wakeup, p = .wakeFlag r (j :: wakeup) ∧ p' = .wakePost r j wakeup := by
  cases hmove with
  | dequeueClear c x => exact .inl ⟨rfl, c, x, rfl, rfl⟩
  | wakeFlag r cur wakeup => exact .inr ⟨r, wakeup, rfl, rfl⟩

/-- The other steps. -/
def Effect.calm : Effect ι → Bool
  | push _ | delete | takeOff _ | notWaiting _ => false
  | _ => true

/-- What a calm step does to the place of the process that makes it; `lw` is its `lwWaiting`. -/
structure Calm (lw : WaitState) (p p' : Pc ι) : Prop where
  queued : p'.queuedCall = p.queuedCall ∨ p'.queuedCall = none ∧ lw ≠ .waiting
  left : p'.left = p.left
  quiet : p'.queuedCall = none → p'.left = false → p'.absorbs = false →
    (p.queuedCall = none ∧ p.left = false ∧ p.absorbs = false) ∨ lw = .notWaiting
  wakeup : p'.wakeup = p.wakeup

/-- A process that keeps its relation to the list. -/
theorem Calm.of_same (hq : p'.queuedCall = p.queuedCall) (hl : p'.left = p.left) (ha : p'.absorbs = p.absorbs)
    (hw : p'.wakeup = p.wakeup) : Calm lw p p' := by
  constructor
  all_goals grind

theorem Move.toCalm (hmove : Move m i p e p') (hcalm : e.calm = true) : Calm (m.lwWaiting i) p p' := by
  cases hmove with
  | addOk c stage x | casOk c stage x => cases stage <;> exact .of_same rfl rfl rfl rfl
  | addFail c stage x | loadFree c stage x | casAgain c stage x =>
    cases stage <;> exact .of_same rfl rfl rfl rfl
  | stateFree v stage x | stateHeld v stage x | varChanged v stage x | varSame v stage x =>
    cases stage <;> exact .of_same rfl rfl rfl rfl
  | loadFail c stage x | casFail c stage x | backoutDone c stage x =>
    cases stage <;> cases c <;> exact .of_same rfl rfl rfl rfl
  | backoutWake c stage => cases stage <;> exact .of_same rfl rfl rfl rfl
  | queueUnlock c => cases c <;> exact .of_same rfl rfl rfl rfl
  | awoken c x h => exact ⟨.inr ⟨rfl, by rw [h]; nofun⟩, rfl, fun _ _ _ => .inr h, rfl⟩
  | dequeueOff c x h => exact ⟨.inr ⟨rfl, h⟩, rfl, fun _ _ => nofun, rfl⟩
  | dequeueLast c x on | dequeueMore c x on => cases on <;> exact .of_same rfl rfl rfl rfl
  | dequeueAwoken c x y h => exact ⟨.inl rfl, rfl, fun _ _ _ => .inr h, rfl⟩
  | wakeDone r =>
    cases r with
    | backedOut c stage => cases stage <;> cases c <;> exact .of_same rfl rfl rfl rfl
    | _ => exact .of_same rfl rfl rfl rfl
  | queuePush | dequeueOn | wakeScan | updateScan | wakeFlag | dequeueClear => cases hcalm
  | _ => exact .of_same rfl rfl rfl rfl

/-- What the wait list, `lwWaiting` and `lwWaitMode` say of process `i` fits its place. -/
structure Placed (m : Mem ι) (i : ι) (p : Pc ι) : Prop where
  queued : i ∈ m.waiters → p.queuedCall ≠ none
  mode : ∀ c, p.queuedCall = some c → m.lwWaitMode i = c.waitMode
  onList : p.queuedCall ≠ none → m.lwWaiting i = .waiting → i ∈ m.waiters
  left : p.left = true → m.lwWaiting i = .waiting
  quiet : p.queuedCall = none → p.left = false → p.absorbs = false → m.lwWaiting i = .notWaiting
  pending : ∀ j ∈ p.wakeup, m.lwWaiting j = .pendingWakeup
  nodup : p.wakeup.Nodup

attribute [grind cases] Calm Placed

/-- A place depends on what the shared memory says of its process and of those it has yet to tell. -/
theorem Placed.congr (h : Placed m i p) (hmem : i ∈ m'.waiters ↔ i ∈ m.waiters)
    (hlw : m'.lwWaiting i = m.lwWaiting i) (hmode : m'.lwWaitMode i = m.lwWaitMode i)
    (hpend : ∀ j ∈ p.wakeup, m'.lwWaiting j = m.lwWaiting j) : Placed m' i p := by
  constructor
  all_goals grind

/-- A process that has left the list by itself is at no place of a queued one. -/
theorem Pc.not_queued_of_left (h : p.left = true) : p.queuedCall = none := by
  cases p with
  | dequeueFlag | dequeueUnlock | dequeueClear => rfl
  | _ => cases h

/-- The wait list and the processes off it fit the places. -/
structure Listed (m : Mem ι) (pc : ι → Pc ι) : Prop where
  nodup : m.waiters.Nodup
  waiting : ∀ i ∈ m.waiters, m.lwWaiting i = .waiting
  placed : ∀ i, Placed m i (pc i)
  wakeOnce : ∀ k k' j, j ∈ (pc k).wakeup → j ∈ (pc k').wakeup → k = k'

variable {pc : ι → Pc ι}

/-- Who has yet to be told is not on the list. -/
theorem Listed.not_waiter (h : Listed m pc) (hj : j ∈ (pc k).wakeup) : j ∉ m.waiters := by
  intro hmem
  have hpend := (h.placed k).pending j hj
  rw [h.waiting j hmem] at hpend
  cases hpend

variable [DecidableEq ι]

theorem calm_waiters (m : Mem ι) (i : ι) (h : e.calm = true) : (m.act i e).waiters = m.waiters := by
  cases e with
  | push | delete | takeOff | notWaiting => cases h
  | _ => rw [Mem.act]

theorem calm_lwWaiting (m : Mem ι) (i : ι) (h : e.calm = true) : (m.act i e).lwWaiting = m.lwWaiting := by
  cases e with
  | push | delete | takeOff | notWaiting => cases h
  | _ => rw [Mem.act]

theorem calm_lwWaitMode (m : Mem ι) (i : ι) (h : e.calm = true) : (m.act i e).lwWaitMode = m.lwWaitMode := by
  cases e with
  | push | delete | takeOff | notWaiting => cases h
  | _ => rw [Mem.act]

section

variable (h : Listed m pc)
include h

/-- A process that has nobody new to tell. -/
theorem Listed.wakeOnce_of_subset (hsub : ∀ j ∈ p'.wakeup, j ∈ (pc i).wakeup) :
    ∀ k k' j, j ∈ (update pc i p' k).wakeup → j ∈ (update pc i p' k').wakeup →
      k = k' := by
  have hback : ∀ k, ∀ j ∈ (update pc i p' k).wakeup, j ∈ (pc k).wakeup :=
    (forall_update_iff pc fun k q => ∀ j ∈ q.wakeup, j ∈ (pc k).wakeup).mpr
      ⟨hsub, fun _ _ _ hj => hj⟩
  intro k k' j hj hj'
  exact h.wakeOnce k k' j (hback k j hj) (hback k' j hj')

theorem Listed.calm (hcalm : Calm (m.lwWaiting i) (pc i) p')
    (hwaiters : m'.waiters = m.waiters) (hwaiting : m'.lwWaiting = m.lwWaiting)
    (hmode : m'.lwWaitMode = m.lwWaitMode) : Listed m' (update pc i p') := by
  have hi := h.placed i
  have hnodup := h.nodup
  have hlisted := h.waiting
  have hplaced : ∀ j, Placed m' j (update pc i p' j) := by
    apply (forall_update_iff pc (Placed m')).mpr
    constructor
    · constructor
      all_goals grind
    · intro j _
      apply (h.placed j).congr
      all_goals grind
  refine ⟨?_, ?_, hplaced, h.wakeOnce_of_subset (by grind)⟩
  all_goals grind

/-- `LWLockQueueSelf`: the process was quiet, so nobody has it on a list. -/
theorem Listed.push (hp : pc i = .queuePush c x) :
    Listed (m.act i (.push c.waitMode)) (update pc i (.queueUnlock c x)) := by
  have hi := h.placed i
  rw [hp] at hi
  have hquiet : m.lwWaiting i = .notWaiting := hi.quiet rfl rfl rfl
  have hnot : i ∉ m.waiters := fun hmem => hi.queued hmem rfl
  have hmem : ∀ j, j ∈ (m.act i (.push c.waitMode)).waiters ↔ j = i ∨ j ∈ m.waiters := by
    grind [Mem.act]
  have hlw : ∀ j, (m.act i (.push c.waitMode)).lwWaiting j = if j = i then .waiting else m.lwWaiting j :=
    update_apply m.lwWaiting i .waiting
  have hmode : ∀ j, (m.act i (.push c.waitMode)).lwWaitMode j = if j = i then c.waitMode else m.lwWaitMode j :=
    update_apply m.lwWaitMode i c.waitMode
  have hplaced : ∀ j, Placed (m.act i (.push c.waitMode)) j (update pc i (.queueUnlock c x) j) := by
    apply (forall_update_iff pc (Placed _)).mpr
    constructor
    · constructor
      all_goals grind [Pc.queuedCall, Pc.left, Pc.absorbs, Pc.wakeup]
    · intro j hji
      have hpend := (h.placed j).pending
      apply (h.placed j).congr
      all_goals grind
  refine ⟨?_, ?_, hplaced, h.wakeOnce_of_subset nofun⟩
  · have hnodup := h.nodup
    grind [Mem.act]
  · have hwaiting := h.waiting
    grind

/-- `LWLockDequeueSelf` finds itself on the list. -/
theorem Listed.delete (hw : m.lwWaiting i = .waiting) :
    Listed (m.act i .delete) (update pc i (.dequeueFlag c x true)) := by
  have hmem : ∀ j, j ∈ (m.act i .delete).waiters ↔ j ≠ i ∧ j ∈ m.waiters := fun j => h.nodup.mem_erase_iff
  have hplaced : ∀ j, Placed (m.act i .delete) j (update pc i (.dequeueFlag c x true) j) := by
    apply (forall_update_iff pc (Placed _)).mpr
    constructor
    · have hlw : (m.act i .delete).lwWaiting = m.lwWaiting := rfl
      constructor
      all_goals grind [Pc.queuedCall, Pc.left, Pc.absorbs, Pc.wakeup]
    · intro j hji
      exact (h.placed j).congr ((hmem j).trans (and_iff_right hji)) rfl rfl (fun _ _ => rfl)
  refine ⟨h.nodup.erase i, ?_, hplaced, h.wakeOnce_of_subset nofun⟩
  exact fun j hj => h.waiting j ((hmem j).mp hj).2

/-- A walk takes some off the list; the process that walks has yet to tell them. -/
theorem Listed.takeOff (hperm : (scan.wakeup ++ scan.rest).Perm m.waiters)
    (hqueued : p'.queuedCall = (pc i).queuedCall) (hleft : p'.left = (pc i).left)
    (habs : p'.absorbs = (pc i).absorbs) (hwakeup : p'.wakeup = scan.wakeup) :
    Listed (m.act i (.takeOff scan)) (update pc i p') := by
  have hnd : (scan.wakeup ++ scan.rest).Nodup := hperm.nodup_iff.mpr h.nodup
  rw [nodup_append] at hnd
  obtain ⟨hwnd, hrnd, hdisj⟩ := hnd
  have hmem : ∀ j, j ∈ scan.wakeup ∨ j ∈ scan.rest ↔ j ∈ m.waiters := fun j => by
    rw [← mem_append]
    exact hperm.mem_iff
  have hlw : ∀ j, (m.act i (.takeOff scan)).lwWaiting j =
      if j ∈ scan.wakeup then .pendingWakeup else m.lwWaiting j := fun _ => rfl
  have hrest : (m.act i (.takeOff scan)).waiters = scan.rest := rfl
  have hmode : (m.act i (.takeOff scan)).lwWaitMode = m.lwWaitMode := rfl
  -- who was to be told already was not on the list
  have hold : ∀ k j, j ∈ (pc k).wakeup → j ∉ scan.wakeup := fun k j hj hscan =>
    h.not_waiter hj ((hmem j).mp (.inl hscan))
  -- whoever stays at its place and has nobody new to tell
  have hkeep : ∀ j q, Placed m j q → (∀ k ∈ q.wakeup, k ∉ scan.wakeup) →
      Placed (m.act i (.takeOff scan)) j q := by
    intro j q hq hnew
    have hleft := @Pc.not_queued_of_left _ q
    constructor
    all_goals grind
  have hplaced : ∀ j, Placed (m.act i (.takeOff scan)) j (update pc i p' j) := by
    apply (forall_update_iff pc (Placed _)).mpr
    refine ⟨?_, fun j _ => hkeep j (pc j) (h.placed j) (hold j)⟩
    have hi := hkeep i (pc i) (h.placed i) (hold i)
    constructor
    all_goals grind
  refine ⟨hrnd, ?_, hplaced, ?_⟩
  · have hwaiting := h.waiting
    grind
  · have honce := h.wakeOnce
    grind

/-- `lwWaiting` of a process off the list goes back to not waiting. -/
theorem Listed.notWaiting (hnot : j ∉ m.waiters)
    (hsub : ∀ k ∈ p'.wakeup, k ∈ (pc i).wakeup) (hgone : ∀ k, j ∉ (update pc i p' k).wakeup)
    (hleft : ∀ k, (update pc i p' k).left = true → k ≠ j)
    (hplaced : Placed m i (pc i) → Placed (m.act i (.notWaiting j)) i p') :
    Listed (m.act i (.notWaiting j)) (update pc i p') := by
  have hlw : ∀ k, (m.act i (.notWaiting j)).lwWaiting k = if k = j then .notWaiting else m.lwWaiting k :=
    update_apply m.lwWaiting j .notWaiting
  have hplaced : ∀ k, Placed (m.act i (.notWaiting j)) k (update pc i p' k) := by
    apply (forall_update_iff pc (Placed _)).mpr
    refine ⟨hplaced (h.placed i), fun k hki => ?_⟩
    have hk := h.placed k
    have hleftk := hleft k
    constructor
    case queued => exact hk.queued
    case mode => exact hk.mode
    case onList =>
      have hwaiters : (m.act i (.notWaiting j)).waiters = m.waiters := rfl
      grind
    all_goals grind
  refine ⟨h.nodup, ?_, hplaced, h.wakeOnce_of_subset hsub⟩
  intro k hk
  have hne : k ≠ j := fun hkj => hnot (hkj ▸ hk)
  rw [hlw, if_neg hne]
  exact h.waiting k hk

/-- A process that has left the list says so. -/
theorem Listed.clearSelf (hp : pc i = .dequeueClear c x) :
    Listed (m.act i (.notWaiting i)) (update pc i (.repay c.mode x)) := by
  have hi := h.placed i
  rw [hp] at hi
  have hw : m.lwWaiting i = .waiting := hi.left rfl
  have hlw : (m.act i (.notWaiting i)).lwWaiting i = .notWaiting := update_self ..
  have hwaiters : (m.act i (.notWaiting i)).waiters = m.waiters := rfl
  apply h.notWaiting
  case hnot => exact fun hmem => hi.queued hmem rfl
  case hsub => nofun
  case hgone =>
    apply (forall_update_iff pc fun _ q => i ∉ q.wakeup).mpr
    refine ⟨nofun, fun k _ hk => ?_⟩
    have hpend := (h.placed k).pending i hk
    rw [hw] at hpend
    cases hpend
  case hleft =>
    apply (forall_update_iff pc fun k q => q.left = true → k ≠ i).mpr
    exact ⟨nofun, fun k hk _ => hk⟩
  case hplaced =>
    intro _
    constructor
    all_goals grind [Pc.queuedCall, Pc.left, Pc.absorbs, Pc.wakeup]

/-- A process off the list is told. -/
theorem Listed.tell (hp : pc i = .wakeFlag r (j :: wakeup)) :
    Listed (m.act i (.notWaiting j)) (update pc i (.wakePost r j wakeup)) := by
  have hi := h.placed i
  rw [hp] at hi
  have hj : j ∈ (pc i).wakeup := by
    rw [hp]
    exact mem_cons_self
  have hpend := (h.placed i).pending j hj
  have hnew : j ∉ wakeup := (nodup_cons.mp hi.nodup).1
  have hlw : ∀ k, (m.act i (.notWaiting j)).lwWaiting k = if k = j then .notWaiting else m.lwWaiting k :=
    update_apply m.lwWaiting j .notWaiting
  have hwaiters : (m.act i (.notWaiting j)).waiters = m.waiters := rfl
  apply h.notWaiting
  case hnot => exact h.not_waiter hj
  case hsub =>
    rw [hp]
    exact fun k hk => mem_cons_of_mem j hk
  case hgone =>
    apply (forall_update_iff pc fun _ q => j ∉ q.wakeup).mpr
    exact ⟨hnew, fun k hk hmem => hk (h.wakeOnce k i j hmem hj)⟩
  case hleft =>
    apply (forall_update_iff pc fun k q => q.left = true → k ≠ j).mpr
    refine ⟨nofun, fun k _ hl hkj => ?_⟩
    have hw := (h.placed k).left hl
    rw [hkj, hpend] at hw
    cases hw
  case hplaced =>
    intro _
    constructor
    case mode => exact hi.mode
    all_goals grind [Pc.queuedCall, Pc.left, Pc.absorbs, Pc.wakeup]

theorem Listed.step (hmove : Move m i (pc i) e p') : Listed (m.act i e) (update pc i p') := by
  cases e with
  | push =>
    obtain ⟨c, x, hp, rfl, rfl⟩ := hmove.push_inv
    exact h.push hp
  | delete =>
    obtain ⟨c, x, hp, rfl, hw⟩ := hmove.delete_inv
    exact h.delete hw
  | takeOff =>
    cases hmove.takeOff_inv with
    | inl hwake =>
      obtain ⟨r, hp, rfl, hscan⟩ := hwake
      have hperm := scanWaiters_perm m.lwWaitMode false m.waiters
      rw [← hscan] at hperm
      apply h.takeOff hperm
      case hwakeup => rfl
      all_goals
        rw [hp]
        rfl
    | inr hupdate =>
      obtain ⟨hp, rfl, hscan⟩ := hupdate
      have hperm := scanUntilFree_perm m.lwWaitMode m.waiters
      rw [← hscan] at hperm
      apply h.takeOff hperm
      case hwakeup => rfl
      all_goals
        rw [hp]
        rfl
  | notWaiting =>
    cases hmove.notWaiting_inv with
    | inl hself =>
      obtain ⟨rfl, c, x, hp, rfl⟩ := hself
      exact h.clearSelf hp
    | inr htell =>
      obtain ⟨r, wakeup, hp, rfl⟩ := htell
      exact h.tell hp
  | _ =>
    apply h.calm (hmove.toCalm rfl)
    · exact calm_waiters m i rfl
    · exact calm_lwWaiting m i rfl
    · exact calm_lwWaitMode m i rfl

end

end LwLock
