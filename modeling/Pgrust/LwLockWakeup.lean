import Pgrust.LwLockList

/-!
No wake-up is lost. A process that is asleep on the list saw the lock taken after it had queued.
Since then either somebody has the lock, or somebody who gave it up is about to walk the list, or a
process that was woken has yet to try again; and as long as `RELEASE_OK` is clear, a process that
was woken has yet to set it.
-/
namespace LwLock

open LwWord List
open Function (update update_self update_of_ne forall_update_iff update_idem)

variable {ι : Type}

/-- The attempt behind the queueing has failed. -/
def Pc.commits : Pc ι → Bool
  | backout _ .queued _ | checkVar _ .queued _ | sleep _ _ | sleepCheck _ _ => true
  | wakeLock r | wakeScan r | wakeCas r _ _ | wakeFlag r _ | wakePost r _ _ => r.queuedCall.isSome
  | _ => false

def Ret.toRetry (r : Ret) : Bool := r.queuedCall.any Call.retries

/-- Off the list, the process will try to get the lock. -/
def Pc.toRetry : Pc ι → Bool
  | queueUnlock c _ | attempt c .queued _ | cas c .queued _ _ | backout c .queued _ | sleep c _
  | sleepCheck c _ | awake c _ | attempt c .retry _ | cas c .retry _ _ => c.retries
  | wakeLock r | wakeScan r | wakeCas r _ _ | wakeFlag r _ | wakePost r _ _ => r.toRetry
  | _ => false

/-- Off the list, the process will set `RELEASE_OK`. -/
def Pc.owes : Pc ι → Bool
  | queueUnlock c _ | attempt c .queued _ | cas c .queued _ _ | backout c .queued _ | sleep c _
  | sleepCheck c _ | awake c _ | dequeue c _ | dequeueList c _ | dequeueFlag c _ false
  | dequeueUnlock c _ false | dequeueOk c _ => c.retries
  | wakeLock r | wakeScan r | wakeCas r _ _ | wakeFlag r _ | wakePost r _ _ => r.toRetry
  | _ => false

/-- The process is about to walk the list. -/
def Pc.willScan : Pc ι → Bool
  | wakeLock _ | wakeScan _ => true
  | _ => false

variable {m : Mem ι} {i : ι} {p p' : Pc ι} {e : Effect ι}

theorem Pc.wakes_of_willScan (h : p.willScan = true) : p.wakes = true := by
  cases p with
  | wakeLock | wakeScan => rfl
  | _ => cases h

variable {c : Call}

theorem Pc.owes_of_queued (hc : p.queuedCall = some c) (hr : c.retries = true) : p.owes = true := by
  cases p with
  | attempt d stage | cas d stage | backout d stage =>
    cases stage <;> cases hc
    exact hr
  | checkVar v stage =>
    cases stage <;> cases hc
    cases hr
  | wakeLock r | wakeScan r | wakeCas r | wakeFlag r | wakePost r =>
    have hany : r.toRetry = true := by
      rw [Ret.toRetry, show r.queuedCall = some c from hc]
      exact hr
    exact hany
  | queueUnlock | sleep | sleepCheck | dequeue | dequeueList =>
    cases hc
    exact hr
  | forceOk =>
    cases hc
    cases hr
  | _ => cases hc

/-- A process that is queued for the lock itself. -/
def Pc.Wants (p : Pc ι) : Prop := ∃ c, p.queuedCall = some c ∧ c.retries = true

theorem Pc.Wants.owes (h : p.Wants) : p.owes = true := by
  obtain ⟨c, hc, hr⟩ := h
  exact Pc.owes_of_queued hc hr

/-- Who owes the flag will try again, or has the lock. -/
theorem Pc.toRetry_or_mode (h : p.owes = true) : p.toRetry = true ∨ p.mode ≠ none := by
  have hmode : ∀ c : Call, c.retries = true → c.mode ≠ none := by
    intro c hc
    cases c with
    | acquire => nofun
    | _ => cases hc
  cases p with
  | attempt d stage | cas d stage | backout d stage =>
    cases stage with
    | queued => exact .inl h
    | _ => cases h
  | dequeueFlag c x on | dequeueUnlock c x on =>
    cases on with
    | false => exact .inr (hmode c h)
    | true => cases h
  | dequeue c | dequeueList c | dequeueOk c => exact .inr (hmode c h)
  | queueUnlock | sleep | sleepCheck | awake => exact .inl h
  | wakeLock r | wakeScan r | wakeCas r | wakeFlag r | wakePost r => exact .inl h
  | _ => cases h

section

variable (hmove : Move m i p e p')
include hmove

/-- A process commits itself to sleep when it sees the lock taken. -/
theorem Move.commits (h : p'.commits = true) :
    p.commits = true ∨ m.word &&& lwLockMask ≠ 0 ∧ (e = .silent ∨ e = .addShared) := by
  cases hmove with
  | addFail c stage x hc hheld => exact .inr ⟨mask_ne_zero_of_exclusive hheld, .inr rfl⟩
  | stateHeld v stage x hheld => exact .inr ⟨mask_ne_zero_of_exclusive hheld, .inl rfl⟩
  | loadFail c stage x hc hbusy | casFail c stage x old hbusy => exact .inr ⟨hbusy, .inl rfl⟩
  | addOk c stage x | casOk c stage x | stateFree c stage x | varChanged c stage x => cases stage <;> cases h
  | varSame c stage | backoutWake c stage =>
    cases stage with
    | queued => exact .inl rfl
    | _ => cases h
  | backoutDone c stage =>
    cases stage with
    | queued => exact .inl rfl
    | _ => cases c <;> cases h
  | queueUnlock c => cases c <;> cases h
  | sleepAgain | sleep => exact .inl rfl
  | wakeDone r =>
    cases r with
    | backedOut c stage =>
      cases stage with
      | queued => exact .inl rfl
      | _ => cases c <;> cases h
    | _ => cases h
  | wakeLock | wakeScan | wakeCas | wakeFlag | wakePost => exact .inl h
  | _ => cases h

/-- Who owes the flag sets it before the process is through, unless it was on the list. -/
theorem Move.owes (h : p.owes = true) : p'.owes = true ∨ e = .setReleaseOk ∨ e = .delete := by
  cases hmove with
  | addOk c stage x | addFail c stage x | loadFree c stage x | casOk c stage x | casAgain c stage x
  | backoutWake c stage =>
    cases stage with
    | queued => exact .inl h
    | _ => cases h
  | loadFail c stage x | casFail c stage x | backoutDone c stage x =>
    cases stage with
    | queued => cases c <;> exact .inl h
    | _ => cases h
  | stateFree v stage x | stateHeld v stage x => cases stage <;> cases h
  | queueUnlock c =>
    cases c with
    | forVar => cases h
    | _ => exact .inl h
  | wakeDone r =>
    cases r with
    | backedOut c stage =>
      cases stage with
      | queued => cases c <;> exact .inl h
      | _ => cases h
    | _ => cases h
  | retry | dequeueOk => exact .inr (.inl rfl)
  | dequeueOn => exact .inr (.inr rfl)
  | dequeueLast c x on | dequeueMore c x on =>
    cases on with
    | false => exact .inl h
    | true => cases h
  | sleep | sleepAgain | awoken | dequeueLock | dequeueOff | dequeueTaken => exact .inl h
  | wakeLock | wakeScan | wakeCas | wakeFlag | wakePost => exact .inl h
  | _ => cases h

/-- Who will try again goes on to do so until it finds the lock taken or takes it. -/
theorem Move.toRetry (h : p.toRetry = true) :
    p'.toRetry = true ∨ e = .addShared ∨ e = .addExclusive ∨ e = .silent ∧ m.word &&& lwLockMask ≠ 0 := by
  cases hmove with
  | addOk | addFail => exact .inr (.inl rfl)
  | casOk => exact .inr (.inr (.inl rfl))
  | loadFail c stage x hc hbusy | casFail c stage x old hbusy => exact .inr (.inr (.inr ⟨rfl, hbusy⟩))
  | loadFree c stage x | casAgain c stage x =>
    cases stage with
    | first => cases h
    | _ => exact .inl h
  | backoutWake c stage =>
    cases stage with
    | queued => exact .inl h
    | _ => cases h
  | backoutDone c stage =>
    cases stage with
    | queued => cases c <;> exact .inl h
    | _ => cases h
  | stateFree v stage x | stateHeld v stage x => cases stage <;> cases h
  | queueUnlock c =>
    cases c with
    | forVar => cases h
    | _ => exact .inl h
  | wakeDone r =>
    cases r with
    | backedOut c stage =>
      cases stage with
      | queued => cases c <;> exact .inl h
      | _ => cases h
    | _ => cases h
  | sleep | sleepAgain | awoken | retry => exact .inl h
  | wakeLock | wakeScan | wakeCas | wakeFlag | wakePost => exact .inl h
  | _ => cases h

theorem Move.willScan (h : p.willScan = true) : p'.willScan = true ∨ ∃ scan, e = .takeOff scan := by
  cases hmove with
  | wakeLock => exact .inl rfl
  | wakeScan r scan => exact .inr ⟨scan, rfl⟩
  | _ => cases h

/-- A process that owes the flag is not queueing. -/
theorem Move.not_push_of_owes (h : p.owes = true) (mode : WaitMode) : e ≠ .push mode := by
  rintro rfl
  obtain ⟨c, x, rfl, _, _⟩ := hmove.push_inv
  cases h

theorem Move.not_push_of_toRetry (h : p.toRetry = true) (mode : WaitMode) : e ≠ .push mode := by
  rintro rfl
  obtain ⟨c, x, rfl, _, _⟩ := hmove.push_inv
  cases h

end

/-- Only `LWLockQueueSelf` itself gets to the place behind the flag, and the flag is about to be cleared
only behind a walk that has woken somebody. -/
theorem Move.target (hmove : Move m i p e p') : match p' with
    | .queuePush .. => e = .setHasWaiters
    | .wakeCas r wakeup ok => ∃ scan : Scan ι, e = .takeOff scan ∧ p = .wakeScan r ∧ wakeup = scan.wakeup ∧
        ok = !scan.wokeupSomebody ∧ scan = scanWaiters m.lwWaitMode false m.waiters
    | _ => True := by
  cases hmove with
  | queueFlag => rfl
  | wakeScan r scan h => exact ⟨scan, rfl, rfl, rfl, rfl, h⟩
  | addOk d stage | casOk d stage | stateFree d stage | varChanged d stage | varSame d stage =>
    cases stage <;> trivial
  | loadFail d stage | casFail d stage | backoutDone d stage => cases stage <;> cases d <;> trivial
  | queueUnlock d => cases d <;> trivial
  | wakeDone r =>
    cases r with
    | backedOut d stage => cases stage <;> cases d <;> trivial
    | _ => trivial
  | _ => trivial

theorem Move.wakeWord_inv (hmove : Move m i p (.wakeWord ok) p') : ∃ r wakeup, p = .wakeCas r wakeup ok := by
  cases hmove with
  | wakeCas r wakeup => exact ⟨r, wakeup, rfl⟩

/-- A queued process stays one until it is told or gets the list. -/
theorem Move.queued_stays (hmove : Move m i p e p') (h : p.queuedCall = some c) :
    p'.queuedCall = some c ∨ m.lwWaiting i = .notWaiting ∨ p.hasList = true := by
  cases hmove with
  | awoken d x hw => exact .inr (.inl hw)
  | dequeueOff | dequeueOn | wakeScan => exact .inr (.inr rfl)
  | addOk d stage | addFail d stage | loadFree d stage | casOk d stage | casAgain d stage
  | stateFree d stage | stateHeld d stage | varChanged d stage | varSame d stage
  | backoutWake d stage =>
    cases stage <;> cases h
    exact .inl rfl
  | loadFail d stage | casFail d stage | backoutDone d stage =>
    cases stage <;> cases h
    cases c <;> exact .inl rfl
  | queueUnlock =>
    cases h
    cases c <;> exact .inl rfl
  | wakeDone r =>
    cases r with
    | backedOut d stage =>
      cases stage <;> cases h
      cases c <;> exact .inl rfl
    | _ => cases h
  | wakeLock | wakeCas | wakeFlag | wakePost | sleep | sleepAgain | dequeueLock | forceOk => exact .inl h
  | _ => cases h

/-- Some process off the list is at one of the places. -/
def Off (q : Pc ι → Bool) (m : Mem ι) (pc : ι → Pc ι) : Prop := ∃ j, j ∉ m.waiters ∧ q (pc j) = true

variable {pc : ι → Pc ι}

/-- Who owes the flag will try again unless it has the lock. -/
theorem Owners.retry_of_owes [Fintype ι] (h : Owners F pc) (howes : Off Pc.owes m pc) :
    F.Busy ∨ Off Pc.toRetry m pc := by
  obtain ⟨j, hj, hq⟩ := howes
  cases Pc.toRetry_or_mode hq with
  | inl hretry => exact .inr ⟨j, hj, hretry⟩
  | inr hmode =>
    obtain ⟨mode, hmode⟩ := Option.ne_none_iff_exists'.mp hmode
    cases mode with
    | exclusive => exact .inl (.inl (h.exclusive_of_mode hmode))
    | shared => exact .inl (.inr (h.shared_of_mode hmode))

variable {j : ι}

/-- Who has yet to be told that it is off the list, and wants the lock, owes the flag. -/
theorem Listed.owes_of_wants (h : Listed m pc) (hj : j ∈ (pc k).wakeup) (hwants : (pc j).Wants) :
    Off Pc.owes m pc := ⟨j, h.not_waiter hj, hwants.owes⟩

/-- The flags of the word against the wait list and the places. -/
structure Woken (F : Fields) (m : Mem ι) (pc : ι → Pc ι) : Prop where
  flagged : m.waiters ≠ [] → F.hasWaiters = true
  flagging : ∀ i c x, pc i = .queuePush c x → F.hasWaiters = true
  releaseOk : F.releaseOk = false → Off Pc.owes m pc
  clearing : ∀ i r wakeup, pc i = .wakeCas r wakeup false → ∃ j ∈ wakeup, (pc j).Wants
  rescue : ∀ i ∈ m.waiters, (pc i).commits = true → F.Busy ∨ (∃ j, (pc j).willScan = true) ∨ Off Pc.toRetry m pc

variable [DecidableEq ι]

/-- Who gives up the lock walks the list unless the word says that there is no need. -/
theorem Move.scans_or_not (hmove : Move m i p e p') (he : e = .subShared ∨ e = .subExclusive) :
    p'.willScan = true ∨ checkWaiters (m.act i e).word = false := by
  cases hmove with
  | backoutWake | releaseSharedWake | releaseExclusiveWake => exact .inl rfl
  | backoutDone c stage x h => exact .inr h
  | releaseShared h => exact .inr h
  | releaseExclusive h => exact .inr h
  | _ => rcases he with he | he <;> cases he

/-- Nobody gets on the list except by queueing. -/
theorem not_mem_act (hmove : Move m i p e p') (hj : j ∉ m.waiters)
    (hpush : j = i → ∀ mode, e ≠ .push mode) : j ∉ (m.act i e).waiters := by
  cases e with
  | push mode =>
    have hji : j ≠ i := fun hji => hpush hji mode rfl
    rw [Mem.act]
    split
    · exact not_mem_cons_of_ne_of_not_mem hji hj
    · rw [mem_append, mem_singleton]
      exact fun hmem => hmem.elim hj hji
  | delete => exact fun hmem => hj (mem_of_mem_erase hmem)
  | takeOff =>
    intro hmem
    apply hj
    cases hmove.takeOff_inv with
    | inl hwake =>
      obtain ⟨r, _, _, rfl⟩ := hwake
      exact (scanWaiters_perm m.lwWaitMode false m.waiters).mem_iff.mp (mem_append_right _ hmem)
    | inr hupdate =>
      obtain ⟨_, _, rfl⟩ := hupdate
      exact (scanUntilFree_perm m.lwWaitMode m.waiters).mem_iff.mp (mem_append_right _ hmem)
  | notWaiting => exact hj
  | _ =>
    rw [calm_waiters m i rfl]
    exact hj

/-- What happens to a process off the list, when another one moves or it moves itself. -/
theorem Off.step {q : Pc ι → Bool} {R : Prop} (h : Off q m pc) (hmove : Move m i (pc i) e p')
    (hself : i ∉ m.waiters → q (pc i) = true → q p' = true ∧ (∀ mode, e ≠ .push mode) ∨ R) :
    Off q (m.act i e) (update pc i p') ∨ R := by
  obtain ⟨j, hj, hq⟩ := h
  obtain rfl | hji := eq_or_ne j i
  · cases hself hj hq with
    | inl hstay =>
      refine .inl ⟨j, not_mem_act hmove hj fun _ => hstay.2, ?_⟩
      rw [update_self]
      exact hstay.1
    | inr hR => exact .inr hR
  · refine .inl ⟨j, not_mem_act hmove hj fun hji' => absurd hji' hji, ?_⟩
    rw [update_of_ne hji]
    exact hq

/-- Somebody owes the flag until somebody sets it. -/
theorem Listed.owes_step (h : Listed m pc) (howes : Off Pc.owes m pc) (hmove : Move m i (pc i) e p')
    (hset : e ≠ .setReleaseOk) : Off Pc.owes (m.act i e) (update pc i p') := by
  refine (howes.step (R := False) hmove fun hnot hq => ?_).resolve_right id
  rcases hmove.owes hq with hstay | hok | hdel
  · exact .inl ⟨hstay, hmove.not_push_of_owes hq⟩
  · exact absurd hok hset
  · subst hdel
    obtain ⟨c, x, hp, _, hw⟩ := hmove.delete_inv
    refine absurd ((h.placed i).onList ?_ hw) hnot
    rw [hp]
    nofun

/-- A wake-up that leaves somebody behind takes one off the list that wants the lock. -/
theorem Listed.wants_of_scan (h : Listed m pc) (hscan : scan = scanWaiters m.lwWaitMode false m.waiters)
    (hwoke : scan.wokeupSomebody = true) (hplace : p'.queuedCall = (pc i).queuedCall) :
    ∃ j ∈ scan.wakeup, (update pc i p' j).Wants := by
  have hperm := scanWaiters_perm m.lwWaitMode false m.waiters
  rw [hscan] at hwoke
  obtain ⟨j, hj, hwants⟩ := scanWaiters_wants m.lwWaitMode m.waiters hwoke
  rw [← hscan] at hj hperm
  have hmem : j ∈ m.waiters := hperm.mem_iff.mp (mem_append_left _ hj)
  obtain ⟨c, hc⟩ := Option.ne_none_iff_exists'.mp ((h.placed j).queued hmem)
  have hmode := (h.placed j).mode c hc
  have hretries : c.retries = true := by
    cases c with
    | acquire => rfl
    | _ => exact absurd hmode hwants
  refine ⟨j, hj, c, ?_, hretries⟩
  obtain rfl | hji := eq_or_ne j i
  · rw [update_self, hplace, hc]
  · rw [update_of_ne hji, hc]

/-- Without queueing the list does not get longer. -/
theorem waiters_ne_nil_of_act (hmove : Move m i p e p') (hpush : ∀ mode, e ≠ .push mode)
    (hne : (m.act i e).waiters ≠ []) : m.waiters ≠ [] := by
  intro hnil
  apply hne
  rw [eq_nil_iff_forall_not_mem]
  intro j
  apply not_mem_act hmove
  · rw [hnil]
    exact not_mem_nil
  · exact fun _ => hpush

theorem Woken.flagged_step (h : Woken F m pc) (hmove : Move m i (pc i) e p') (hne : (m.act i e).waiters ≠ []) :
    (effectFields F m.waiters.isEmpty e).hasWaiters = true := by
  cases e with
  | push =>
    obtain ⟨c, x, hp, _, _⟩ := hmove.push_inv
    exact h.flagging i c x hp
  | setHasWaiters => rfl
  | clearHasWaiters =>
    cases hp : pc i <;> rw [hp] at hmove <;> cases hmove
    rename_i hempty _
    exact absurd hempty hne
  | wakeWord =>
    have hne' : m.waiters ≠ [] := hne
    have hflag : (F.hasWaiters && !m.waiters.isEmpty) = true := by
      rw [h.flagged hne', isEmpty_eq_false_iff.mpr hne']
      rfl
    exact hflag
  | _ => exact h.flagged (waiters_ne_nil_of_act hmove nofun hne)

theorem Woken.flagging_step [Fintype ι] (h : Woken F m pc) (how : Owners F pc) (hmove : Move m i (pc i) e p')
    (hj : update pc i p' j = .queuePush c x) : (effectFields F m.waiters.isEmpty e).hasWaiters = true := by
  obtain rfl | hji := eq_or_ne j i
  · rw [update_self] at hj
    subst hj
    obtain rfl : e = .setHasWaiters := hmove.target
    rfl
  · rw [update_of_ne hji] at hj
    have hflag := h.flagging j c x hj
    -- the flag is cleared under the list lock only, and that is with the other process
    have hlist : (pc i).hasList = false :=
      Bool.eq_false_iff.mpr fun hl => hji (how.list_unique (by rw [hj]; rfl) hl)
    cases e with
    | clearHasWaiters | wakeWord =>
      cases hp : pc i <;> rw [hp] at hmove hlist <;> cases hmove
      cases hlist
    | setHasWaiters => rfl
    | _ => exact hflag

theorem Woken.clearing_step [Fintype ι] (h : Woken F m pc) (how : Owners F pc) (hlist : Listed m pc)
    (hmove : Move m i (pc i) e p') (hk : update pc i p' k = .wakeCas r wakeup false) :
    ∃ j ∈ wakeup, (update pc i p' j).Wants := by
  obtain rfl | hki := eq_or_ne k i
  · rw [update_self] at hk
    subst hk
    obtain ⟨scan, rfl, hp, rfl, hok, hscan⟩ := show ∃ scan : Scan ι, _ from hmove.target
    have hwoke : scan.wokeupSomebody = true := by simpa using hok
    apply hlist.wants_of_scan hscan hwoke
    rw [hp]
    rfl
  · rw [update_of_ne hki] at hk
    obtain ⟨j, hj, c, hc, hr⟩ := h.clearing k r wakeup hk
    refine ⟨j, hj, c, ?_, hr⟩
    by_cases hji : j = i
    · -- it has not been told, and the list is with the process that took it off
      subst hji
      rw [update_self]
      rcases hmove.queued_stays hc with hstay | htold | hhas
      · exact hstay
      · have hpend := (hlist.placed k).pending j (by rw [hk]; exact hj)
        rw [htold] at hpend
        cases hpend
      · exact absurd (how.list_unique (by rw [hk]; rfl) hhas) hki
    · rw [update_of_ne hji]
      exact hc

theorem Woken.releaseOk_step (h : Woken F m pc) (hlist : Listed m pc) (hmove : Move m i (pc i) e p')
    (hclear : (effectFields F m.waiters.isEmpty e).releaseOk = false) :
    Off Pc.owes (m.act i e) (update pc i p') := by
  cases e with
  | setReleaseOk => cases hclear
  | wakeWord ok =>
    have hok : ok = false := hclear
    subst hok
    obtain ⟨r, wakeup, hp⟩ := hmove.wakeWord_inv
    obtain ⟨j, hj, hwants⟩ := h.clearing i r wakeup hp
    have hmem : j ∈ (pc i).wakeup := by
      rw [hp]
      exact hj
    exact hlist.owes_step (hlist.owes_of_wants hmem hwants) hmove nofun
  | _ => exact hlist.owes_step (h.releaseOk hclear) hmove nofun

/-- A step that neither gives up the lock nor walks the list. -/
theorem Woken.rescue_keep (h : Woken F m pc) (hfits : F.Fits) (hword : m.word = F.word)
    (hmove : Move m i (pc i) e p') (hF' : F' = effectFields F m.waiters.isEmpty e) (hbusy : F.Busy → F'.Busy)
    (hwalk : ∀ scan, e ≠ .takeOff scan) (hk : k ∈ (m.act i e).waiters)
    (hcommit : (update pc i p' k).commits = true) :
    F'.Busy ∨ (∃ j, (update pc i p' j).willScan = true) ∨ Off Pc.toRetry (m.act i e) (update pc i p') := by
  have hmask : m.word &&& lwLockMask ≠ 0 → F'.Busy := by
    rw [hword]
    exact fun hmask => hbusy (hfits.busy_of_mask hmask)
  have hmem : k ∈ m.waiters := by
    by_contra hnot
    refine not_mem_act hmove hnot ?_ hk
    rintro rfl mode rfl
    obtain ⟨c, x, _, rfl, _⟩ := hmove.push_inv
    rw [update_self] at hcommit
    cases hcommit
  have hbefore : (pc k).commits = true ∨ F'.Busy := by
    obtain rfl | hki := eq_or_ne k i
    · rw [update_self] at hcommit
      exact (hmove.commits hcommit).imp_right fun hsaw => hmask hsaw.1
    · rw [update_of_ne hki] at hcommit
      exact .inl hcommit
  cases hbefore with
  | inr hb => exact .inl hb
  | inl hwas =>
    rcases h.rescue k hmem hwas with hb | ⟨j, hj⟩ | hoff
    · exact .inl (hbusy hb)
    · right; left
      refine ⟨j, ?_⟩
      obtain rfl | hji := eq_or_ne j i
      · rw [update_self]
        exact (hmove.willScan hj).resolve_right fun ⟨scan, he⟩ => hwalk scan he
      · rw [update_of_ne hji]
        exact hj
    · have hnext : Off Pc.toRetry (m.act i e) (update pc i p') ∨ F'.Busy := by
        refine hoff.step hmove fun _ hq => ?_
        rcases hmove.toRetry hq with hstay | rfl | rfl | ⟨_, hsaw⟩
        · exact .inl ⟨hstay, hmove.not_push_of_toRetry hq⟩
        · rw [hF']
          exact .inr (.inr (Nat.succ_pos _))
        · rw [hF']
          exact .inr (.inl rfl)
        · exact .inr (hmask hsaw)
      exact hnext.symm.imp_right .inr

variable [Fintype ι] {F : Fields}

/-- Who gives up the lock and does not walk the list leaves that to one that was woken. -/
theorem Woken.rescue_giveUp (h : Woken F m pc) (hlist : Listed m pc) (how' : Owners F' (update pc i p'))
    (hfits' : F'.Fits) (hword' : (m.act i e).word = F'.word) (hok : F'.releaseOk = F.releaseOk)
    (hflag : F'.hasWaiters = true) (hmove : Move m i (pc i) e p')
    (he : e = .subShared ∨ e = .subExclusive) :
    F'.Busy ∨ (∃ j, (update pc i p' j).willScan = true) ∨ Off Pc.toRetry (m.act i e) (update pc i p') := by
  cases hmove.scans_or_not he with
  | inl hscan =>
    right; left
    refine ⟨i, ?_⟩
    rw [update_self]
    exact hscan
  | inr hcheck =>
    rw [hword', hfits'.checkWaiters_test, hflag] at hcheck
    by_cases hb : F'.Busy
    · exact .inl hb
    · have hexcl : F'.exclusive = false := Bool.eq_false_iff.mpr fun hx => hb (.inl hx)
      have hshared : F'.shared = 0 := by
        by_contra hne
        exact hb (.inr (Nat.pos_of_ne_zero hne))
      rw [hexcl, hshared] at hcheck
      have hclear : F.releaseOk = false := by
        rw [← hok]
        simpa using hcheck
      have howes : Off Pc.owes (m.act i e) (update pc i p') := by
        apply hlist.owes_step (h.releaseOk hclear) hmove
        rintro rfl
        rcases he with he | he <;> cases he
      exact .inr (.inr ((how'.retry_of_owes howes).resolve_left hb))

/-- Who walks the list and leaves somebody on it has woken one that wants the lock. -/
theorem Woken.rescue_walk (how : Owners F pc) (how' : Owners F (update pc i p')) (hlist : Listed m pc)
    (hlist' : Listed (m.act i (.takeOff scan)) (update pc i p')) (hmove : Move m i (pc i) (.takeOff scan) p')
    (hne : scan.rest ≠ []) :
    F.Busy ∨ (∃ j, (update pc i p' j).willScan = true) ∨
      Off Pc.toRetry (m.act i (.takeOff scan)) (update pc i p') := by
  cases hmove.takeOff_inv with
  | inl hwake =>
    obtain ⟨r, hp, hp', hscan⟩ := hwake
    have hwoke : scan.wokeupSomebody = true := by
      rw [hscan] at hne ⊢
      exact scanWaiters_rest m.lwWaitMode m.waiters hne
    have hplace : p'.queuedCall = (pc i).queuedCall := by
      rw [hp, hp']
      rfl
    obtain ⟨j, hj, hwants⟩ := hlist.wants_of_scan hscan hwoke hplace
    have hmem : j ∈ (update pc i p' i).wakeup := by
      rw [update_self, hp']
      exact hj
    exact (how'.retry_of_owes (hlist'.owes_of_wants hmem hwants)).imp_right .inr
  | inr hupdate =>
    have hmode : (pc i).mode = some .exclusive := by
      rw [hupdate.1]
      rfl
    exact .inl (.inl (how.exclusive_of_mode hmode))

theorem Woken.rescue_step (h : Woken F m pc) (how : Owners F pc) (hlist : Listed m pc)
    (hfits : F.Fits) (hword : m.word = F.word) (hmove : Move m i (pc i) e p')
    (hF' : F' = effectFields F m.waiters.isEmpty e) (hfits' : F'.Fits)
    (how' : Owners F' (update pc i p')) (hword' : (m.act i e).word = F'.word)
    (hlist' : Listed (m.act i e) (update pc i p')) (hk : k ∈ (m.act i e).waiters)
    (hcommit : (update pc i p' k).commits = true) :
    F'.Busy ∨ (∃ j, (update pc i p' j).willScan = true) ∨ Off Pc.toRetry (m.act i e) (update pc i p') := by
  have hne : (m.act i e).waiters ≠ [] := ne_nil_of_mem hk
  have hflag : F'.hasWaiters = true := by
    rw [hF']
    exact h.flagged_step hmove hne
  cases e with
  | subShared | subExclusive =>
    subst hF'
    apply h.rescue_giveUp hlist how' hfits' hword' rfl hflag hmove
    first | exact .inl rfl | exact .inr rfl
  | takeOff =>
    subst hF'
    exact Woken.rescue_walk how how' hlist hlist' hmove hne
  | addShared =>
    apply h.rescue_keep hfits hword hmove hF' _ nofun hk hcommit
    rw [hF']
    exact fun _ => .inr (Nat.succ_pos _)
  | addExclusive =>
    apply h.rescue_keep hfits hword hmove hF' _ nofun hk hcommit
    rw [hF']
    exact fun _ => .inl rfl
  | _ =>
    apply h.rescue_keep hfits hword hmove hF' _ nofun hk hcommit
    rw [hF']
    exact id

/-- What holds in every state, for the parts `F` of the state word. -/
structure Inv (F : Fields) (s : State ι) : Prop where
  word : s.mem.word = F.word
  sound : ∀ i, (s.pc i).Sound
  owners : Owners F s.pc
  listed : Listed s.mem s.pc
  woken : Woken F s.mem s.pc

omit [DecidableEq ι] in
theorem Inv.init (var : UInt64) : Inv ⟨false, true, false, false, 0⟩ (initial ι var) := by
  have hnone : ∀ q : Pc ι → Bool, q .idle = false → ThreadCount.count q (initial ι var).pc = 0 :=
    fun q hq => ThreadCount.count_eq_zero.mpr fun _ => hq
  constructor
  case word => rfl
  case sound => exact fun _ => trivial
  case owners =>
    constructor
    case exclusive => exact hnone Pc.hasExclusive rfl
    case shared => rw [hnone Pc.hasShared rfl, hnone Pc.backsOut rfl]
    case locked => exact hnone Pc.hasList rfl
    case alone => nofun
  case listed =>
    constructor
    case nodup => exact nodup_nil
    case waiting => nofun
    case placed =>
      intro i
      constructor
      case queued => nofun
      case mode => nofun
      case onList => exact fun hq => absurd rfl hq
      case left => nofun
      case quiet => exact fun _ _ _ => rfl
      case pending => nofun
      case nodup => exact nodup_nil
    case wakeOnce => nofun
  case woken =>
    constructor
    case flagged => exact fun hne => absurd rfl hne
    case flagging => nofun
    case releaseOk => nofun
    case clearing => nofun
    case rescue => nofun

theorem Inv.step {s : State ι} (h : Inv F s) (hcard : Fintype.card ι ≤ maxBackends)
    (hmove : Move s.mem i (s.pc i) e p') :
    Inv (effectFields F s.mem.waiters.isEmpty e) ⟨s.mem.act i e, update s.pc i p'⟩ := by
  have hfits := h.owners.fits hcard
  have hacc := hmove.account (h.sound i)
  have hword := h.owners.act_word hfits h.word hacc
  have how := @Owners.step ι s.mem i p' e _ F s.pc _ h.owners hfits h.word s.mem.waiters.isEmpty hacc
  have hlisted := h.listed.step hmove
  constructor
  case word => exact hword
  case sound =>
    apply (forall_update_iff s.pc fun _ q => q.Sound).mpr
    exact ⟨hmove.sound (h.sound i), fun j _ => h.sound j⟩
  case owners => exact how
  case listed => exact hlisted
  case woken =>
    constructor
    case flagged => exact h.woken.flagged_step hmove
    case flagging => exact fun _ _ _ hj => h.woken.flagging_step h.owners hmove hj
    case releaseOk => exact h.woken.releaseOk_step h.listed hmove
    case clearing => exact fun _ _ _ hk => h.woken.clearing_step h.owners h.listed hmove hk
    case rescue =>
      exact fun _ hk hcommit => h.woken.rescue_step h.owners h.listed hfits h.word hmove rfl
        (how.fits hcard) how hword hlisted hk hcommit

theorem reachable_inv (hcard : Fintype.card ι ≤ maxBackends) {s : State ι} (h : Reachable s) : ∃ F, Inv F s := by
  induction h with
  | init var => exact ⟨_, Inv.init var⟩
  | step _ hmove ih =>
    obtain ⟨F, hF⟩ := ih
    exact ⟨_, hF.step hcard hmove⟩

/-- The lock is free and somebody sleeps on the list; no shared attempt will back out, nobody is
inside a release, a back-out or a wake-up, and no process that was taken off the list to have the
lock has yet to try again. -/
structure Lost (s : State ι) : Prop where
  free : ∀ i, (s.pc i).mode = none
  asleep : ∃ i ∈ s.mem.waiters, ∃ c x, s.pc i = .sleep c x
  backsOut : ∀ i, (s.pc i).backsOut = false
  wakes : ∀ i, (s.pc i).wakes = false
  retried : ∀ i, i ∉ s.mem.waiters → (s.pc i).toRetry = false

omit [DecidableEq ι] in
theorem Inv.not_lost {s : State ι} (h : Inv F s) : ¬ Lost s := by
  intro hlost
  obtain ⟨i, hmem, c, x, hp⟩ := hlost.asleep
  have hcommit : (s.pc i).commits = true := by
    rw [hp]
    rfl
  rcases h.woken.rescue i hmem hcommit with (hexcl | hshared) | ⟨j, hj⟩ | ⟨j, hj, hretry⟩
  · have hpos : 0 < ThreadCount.count Pc.hasExclusive s.pc := by
      rw [h.owners.exclusive, hexcl]
      exact Nat.one_pos
    obtain ⟨j, hj⟩ := ThreadCount.count_pos.mp hpos
    rw [Pc.hasExclusive, hlost.free j] at hj
    cases hj
  · have hnone : ThreadCount.count Pc.hasShared s.pc = 0 := by
      apply ThreadCount.count_eq_zero.mpr
      intro j
      rw [Pc.hasShared, hlost.free j]
      rfl
    have hback : ThreadCount.count Pc.backsOut s.pc = 0 := ThreadCount.count_eq_zero.mpr hlost.backsOut
    have hcount := h.owners.shared
    omega
  · have hwakes := Pc.wakes_of_willScan hj
    rw [hlost.wakes j] at hwakes
    cases hwakes
  · rw [hlost.retried j hj] at hretry
    cases hretry

/-- An exclusive holder is alone, the word counts the shared holders and attempts, `HAS_WAITERS` is
set when somebody is on the list, and no wake-up is lost. -/
theorem exclusion_no_lost_wakeup (hcard : Fintype.card ι ≤ maxBackends) {s : State ι} (h : Reachable s) :
    (∀ i j, (s.pc i).mode = some .exclusive → j ≠ i → (s.pc j).mode = none) ∧
    (s.mem.word &&& lwSharedMask).toNat = ThreadCount.count Pc.hasShared s.pc + ThreadCount.count Pc.backsOut s.pc ∧
    (s.mem.waiters ≠ [] → s.mem.word &&& lwFlagLocked = 0 → s.mem.word &&& lwFlagHasWaiters ≠ 0) ∧
    ¬ Lost s := by
  obtain ⟨F, hF⟩ := reachable_inv hcard h
  have hfits := hF.owners.fits hcard
  refine ⟨?_, ?_, ?_, hF.not_lost⟩
  · intro i j hi hji
    cases hj : (s.pc j).mode with
    | none => rfl
    | some mode =>
      cases mode with
      | exclusive => exact absurd (hF.owners.exclusive_unique hj hi) hji
      | shared => exact absurd hj (hF.owners.not_shared (hF.owners.exclusive_of_mode hi) j)
  · rw [hF.word, hfits.shared_count, hF.owners.shared]
  · intro hne _
    rw [hF.word, Ne, hfits.hasWaiters_test, hF.woken.flagged hne]
    nofun

namespace Run

/-- The first of two processes has taken the lock. -/
def taken : State (Fin 2) :=
  ⟨(initial (Fin 2) 0).mem.act 0 .addExclusive, update (initial (Fin 2) 0).pc 0 (.held .exclusive)⟩

theorem taken_reachable : Reachable taken := by
  have h₀ : Reachable (initial (Fin 2) 0) := .init 0
  have h₁ := h₀.step (.call (i := 0) (.acquire .exclusive))
  have h₂ := h₁.step (.loadFree (i := 0) (.acquire .exclusive) .first 0 rfl rfl)
  have h₃ := h₂.step (.casOk (i := 0) (.acquire .exclusive) .first 0)
  have h₄ := h₃.step (.got (i := 0) .exclusive)
  simp only [update_idem] at h₄
  exact h₄

theorem exclusion_no_lost_wakeup_taken :
    (taken.pc 0).mode = some .exclusive ∧ (taken.pc 1).mode = none ∧ ¬ Lost taken := by
  have h := exclusion_no_lost_wakeup (by decide) taken_reachable
  exact ⟨rfl, h.1 0 1 rfl nofun, h.2.2.2⟩

end Run

end LwLock
