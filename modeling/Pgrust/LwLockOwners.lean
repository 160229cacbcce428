import Pgrust.LwLock
import Pgrust.ThreadCount

/-!
The state word of the lock against the places of the processes: the exclusive bit and the shared
count say who has the lock, the list bit says who has the wait list.
-/
namespace LwLock

open LwWord ThreadCount

variable {ι : Type}

section Places

variable (c : Call) (stage : Stage) (x : Nat)

@[simp] theorem mode_afterOk : (Pc.afterOk c stage x : Pc ι).mode = c.mode := by
  cases stage <;> rfl

@[simp] theorem backsOut_afterOk : (Pc.afterOk c stage x : Pc ι).backsOut = false := by
  cases stage <;> rfl

@[simp] theorem hasList_afterOk : (Pc.afterOk c stage x : Pc ι).hasList = false := by
  cases stage <;> rfl

@[simp] theorem mode_afterFail : (Pc.afterFail c stage x : Pc ι).mode = none := by
  cases stage <;> cases c <;> rfl

@[simp] theorem backsOut_afterFail : (Pc.afterFail c stage x : Pc ι).backsOut = false := by
  cases stage <;> cases c <;> rfl

@[simp] theorem hasList_afterFail : (Pc.afterFail c stage x : Pc ι).hasList = false := by
  cases stage <;> cases c <;> rfl

@[simp] theorem mode_afterQueue : (Pc.afterQueue c x : Pc ι).mode = none := by
  cases c <;> rfl

@[simp] theorem backsOut_afterQueue : (Pc.afterQueue c x : Pc ι).backsOut = false := by
  cases c <;> rfl

@[simp] theorem hasList_afterQueue : (Pc.afterQueue c x : Pc ι).hasList = false := by
  cases c <;> rfl

@[simp] theorem mode_afterWake (r : Ret) : (Pc.afterWake r : Pc ι).mode = r.mode := by
  cases r with
  | backedOut c stage x => exact mode_afterFail c stage x
  | _ => rfl

@[simp] theorem backsOut_afterWake (r : Ret) : (Pc.afterWake r : Pc ι).backsOut = false := by
  cases r with
  | backedOut c stage x => exact backsOut_afterFail c stage x
  | _ => rfl

@[simp] theorem hasList_afterWake (r : Ret) : (Pc.afterWake r : Pc ι).hasList = false := by
  cases r with
  | backedOut c stage x => exact hasList_afterFail c stage x
  | _ => rfl

end Places

/-- What an attempt has seen before it tries to take the lock exclusively. -/
def Pc.Sound : Pc ι → Prop
  | cas c _ _ old => c.mode = some .exclusive ∧ old &&& lwLockMask = 0
  | _ => True

variable {m : Mem ι} {i : ι} {p p' : Pc ι} {e : Effect ι}

theorem Move.sound (hmove : Move m i p e p') (h : p.Sound) : p'.Sound := by
  cases hmove with
  | loadFree c stage x hc hfree => exact ⟨hc, hfree⟩
  | casAgain c stage x old hfree => exact ⟨h.1, hfree⟩
  | addOk c stage x | casOk c stage x => cases stage <;> trivial
  | loadFail c stage x | casFail c stage x | backoutDone c stage x => cases stage <;> cases c <;> trivial
  | stateFree v stage x | varChanged v stage x | varSame v stage x => cases stage <;> trivial
  | queueUnlock c => cases c <;> trivial
  | wakeDone r =>
    cases r with
    | backedOut c stage => cases stage <;> cases c <;> trivial
    | _ => trivial
  | _ => trivial

/-- The process keeps what it has of the lock and of the wait list. -/
structure Same (p p' : Pc ι) : Prop where
  mode : p'.mode = p.mode
  backsOut : p'.backsOut = p.backsOut
  hasList : p'.hasList = p.hasList

/-- What a step that changes the word means for the process that makes it. -/
def Account (m : Mem ι) (p p' : Pc ι) : Effect ι → Prop
  | .addShared => p.mode = none ∧ p.backsOut = false ∧ p'.hasList = p.hasList ∧
      (m.word &&& lwValExclusive = 0 ∧ p'.mode = some .shared ∧ p'.backsOut = false ∨
        m.word &&& lwValExclusive ≠ 0 ∧ p'.mode = none ∧ p'.backsOut = true)
  | .addExclusive => m.word &&& lwLockMask = 0 ∧ p.mode = none ∧ p'.mode = some .exclusive ∧
      p'.backsOut = p.backsOut ∧ p'.hasList = p.hasList
  | .subShared => p'.mode = none ∧ p'.backsOut = false ∧ p'.hasList = p.hasList ∧
      (p.mode = some .shared ∧ p.backsOut = false ∨ p.mode = none ∧ p.backsOut = true)
  | .subExclusive => p.mode = some .exclusive ∧ p'.mode = none ∧ p'.backsOut = p.backsOut ∧ p'.hasList = p.hasList
  | .lockList => m.word &&& lwFlagLocked = 0 ∧ p.hasList = false ∧ p'.hasList = true ∧
      p'.mode = p.mode ∧ p'.backsOut = p.backsOut
  | .unlockList | .wakeWord _ => p.hasList = true ∧ p'.hasList = false ∧ p'.mode = p.mode ∧ p'.backsOut = p.backsOut
  | _ => Same p p'

theorem Move.account (hmove : Move m i p e p') (h : p.Sound) : Account m p p' e := by
  cases hmove with
  | addOk c stage x hc hfree =>
    exact ⟨rfl, rfl, hasList_afterOk c stage x, .inl ⟨hfree, (mode_afterOk c stage x).trans hc,
      backsOut_afterOk c stage x⟩⟩
  | addFail c stage x hc hheld => exact ⟨rfl, rfl, rfl, .inr ⟨hheld, rfl, rfl⟩⟩
  | casOk c stage x =>
    exact ⟨h.2, rfl, (mode_afterOk c stage x).trans h.1, backsOut_afterOk c stage x, hasList_afterOk c stage x⟩
  | backoutWake => exact ⟨rfl, rfl, rfl, .inr ⟨rfl, rfl⟩⟩
  | backoutDone c stage x =>
    exact ⟨mode_afterFail c stage x, backsOut_afterFail c stage x, hasList_afterFail c stage x, .inr ⟨rfl, rfl⟩⟩
  | releaseShared | releaseSharedWake => exact ⟨rfl, rfl, rfl, .inl ⟨rfl, rfl⟩⟩
  | releaseExclusive | releaseExclusiveWake => exact ⟨rfl, rfl, rfl, rfl⟩
  | queueLock c x hfree | dequeueLock c x hfree | wakeLock r hfree | updateLock hfree =>
    exact ⟨hfree, rfl, rfl, rfl, rfl⟩
  | queueUnlock c x => exact ⟨rfl, hasList_afterQueue c x, mode_afterQueue c x, backsOut_afterQueue c x⟩
  | dequeueLeft | dequeueTaken | wakeCas | updateUnlock => exact ⟨rfl, rfl, rfl, rfl⟩
  | loadFail c stage x | casFail c stage x =>
    exact ⟨mode_afterFail c stage x, backsOut_afterFail c stage x, hasList_afterFail c stage x⟩
  | varSame v stage x => exact ⟨mode_afterFail _ stage x, backsOut_afterFail _ stage x, hasList_afterFail _ stage x⟩
  | stateFree v stage x | varChanged v stage x =>
    exact ⟨mode_afterOk _ stage x, backsOut_afterOk _ stage x, hasList_afterOk _ stage x⟩
  | wakeDone r => exact ⟨mode_afterWake r, backsOut_afterWake r, hasList_afterWake r⟩
  | _ => exact ⟨rfl, rfl, rfl⟩

/-- What a step does to the parts of the word. -/
def effectFields (F : Fields) (empty : Bool) : Effect ι → Fields
  | .addShared => { F with shared := F.shared + 1 }
  | .addExclusive => { F with exclusive := true }
  | .subShared => { F with shared := F.shared - 1 }
  | .subExclusive => { F with exclusive := false }
  | .lockList => { F with locked := true }
  | .unlockList => { F with locked := false }
  | .setHasWaiters => { F with hasWaiters := true }
  | .clearHasWaiters => { F with hasWaiters := false }
  | .setReleaseOk => { F with releaseOk := true }
  | .wakeWord newReleaseOk =>
    { F with hasWaiters := F.hasWaiters && !empty, releaseOk := newReleaseOk, locked := false }
  | _ => F

def Pc.hasExclusive (p : Pc ι) : Bool := decide (p.mode = some .exclusive)

def Pc.hasShared (p : Pc ι) : Bool := decide (p.mode = some .shared)

/-- What a process has, as the counts see it. -/
theorem toNat_hasExclusive (h : p.mode = o) : p.hasExclusive.toNat = if o = some .exclusive then 1 else 0 := by
  rw [Pc.hasExclusive]
  split <;> simp [*]

theorem toNat_hasShared (h : p.mode = o) : p.hasShared.toNat = if o = some .shared then 1 else 0 := by
  rw [Pc.hasShared]
  split <;> simp [*]

theorem not_backsOut_of_hasShared (p : Pc ι) (h : p.hasShared = true) : p.backsOut = false := by
  cases p with
  | backout => cases h
  | _ => rfl

variable [Fintype ι]

/-- The parts of the word count the processes. -/
structure Owners (F : Fields) (pc : ι → Pc ι) : Prop where
  exclusive : count Pc.hasExclusive pc = F.exclusive.toNat
  shared : count Pc.hasShared pc + count Pc.backsOut pc = F.shared
  locked : count Pc.hasList pc = F.locked.toNat
  alone : F.exclusive = true → count Pc.hasShared pc = 0

theorem Owners.fits {F : Fields} {pc : ι → Pc ι} (h : Owners F pc)
    (hcard : Fintype.card ι ≤ maxBackends) : F.Fits := by
  have hle := @count_add_count_le_card ι (Pc ι) _ Pc.hasShared pc Pc.backsOut not_backsOut_of_hasShared
  rw [h.shared] at hle
  exact le_trans hle hcard

variable {F : Fields} {pc : ι → Pc ι}

section

variable (h : Owners F pc)
include h

/-- Who has something of the lock is counted. -/
theorem Owners.exclusive_of_mode (hmode : (pc i).mode = some .exclusive) : F.exclusive = true := by
  have hpos : 0 < count Pc.hasExclusive pc := count_pos.mpr ⟨i, decide_eq_true hmode⟩
  rw [h.exclusive] at hpos
  simpa [Nat.pos_iff_ne_zero] using hpos

theorem Owners.shared_of_mode (hmode : (pc i).mode = some .shared) : 0 < F.shared := by
  have hpos : 0 < count Pc.hasShared pc := count_pos.mpr ⟨i, decide_eq_true hmode⟩
  have hshared := h.shared
  omega

theorem Owners.shared_of_backsOut (hback : (pc i).backsOut = true) : 0 < F.shared := by
  have hpos : 0 < count Pc.backsOut pc := count_pos.mpr ⟨i, hback⟩
  have hshared := h.shared
  omega

theorem Owners.locked_of_hasList (hlist : (pc i).hasList = true) : F.locked = true := by
  have hpos : 0 < count Pc.hasList pc := count_pos.mpr ⟨i, hlist⟩
  rw [h.locked] at hpos
  simpa [Nat.pos_iff_ne_zero] using hpos

/-- Two processes that have the wait list are one. -/
theorem Owners.list_unique (hi : (pc i).hasList = true) (hj : (pc j).hasList = true) : i = j := by
  apply eq_of_count_le_one _ hi hj
  rw [h.locked]
  exact Bool.toNat_le _

theorem Owners.exclusive_unique (hi : (pc i).mode = some .exclusive) (hj : (pc j).mode = some .exclusive) :
    i = j := by
  have hle : count Pc.hasExclusive pc ≤ 1 := by
    rw [h.exclusive]
    exact Bool.toNat_le _
  exact eq_of_count_le_one hle (decide_eq_true hi) (decide_eq_true hj)

theorem Owners.not_shared (hheld : F.exclusive = true) (j : ι) : (pc j).mode ≠ some .shared := by
  have hnone := count_eq_zero.mp (h.alone hheld) j
  rw [Pc.hasShared, decide_eq_false_iff_not] at hnone
  exact hnone

end

variable [DecidableEq ι]

/-- The counts after a move of one process, from what it had and what it has. -/
theorem Owners.of_move (h : Owners F pc) (hmode : (pc i).mode = o) (hmode' : p'.mode = o')
    (hback : (pc i).backsOut = b) (hback' : p'.backsOut = b') (hlist : (pc i).hasList = l)
    (hlist' : p'.hasList = l') (hx : F'.exclusive.toNat + (if o = some .exclusive then 1 else 0) =
      F.exclusive.toNat + (if o' = some .exclusive then 1 else 0))
    (hs : F'.shared + ((if o = some .shared then 1 else 0) + b.toNat) =
      F.shared + ((if o' = some .shared then 1 else 0) + b'.toNat))
    (hl : F'.locked.toNat + l.toNat = F.locked.toNat + l'.toNat) (halone : F'.exclusive = true →
      (o' = some .shared → o = some .shared) ∧ (F.exclusive = true ∨ F.shared = 0)) :
    Owners F' (Function.update pc i p') := by
  have hcx := @count_update ι (Pc ι) _ Pc.hasExclusive pc i p' _
  have hcs := @count_update ι (Pc ι) _ Pc.hasShared pc i p' _
  have hcb := @count_update ι (Pc ι) _ Pc.backsOut pc i p' _
  have hcl := @count_update ι (Pc ι) _ Pc.hasList pc i p' _
  rw [toNat_hasExclusive hmode, toNat_hasExclusive hmode', h.exclusive] at hcx
  rw [toNat_hasShared hmode, toNat_hasShared hmode'] at hcs
  rw [hback, hback'] at hcb
  rw [hlist, hlist', h.locked] at hcl
  have hshared := h.shared
  constructor
  case exclusive => omega
  case shared => omega
  case locked => omega
  case alone =>
    intro hheld
    obtain ⟨hkept, hbefore⟩ := halone hheld
    have hnone : count Pc.hasShared pc = 0 := by
      cases hbefore with
      | inl hheld => exact h.alone hheld
      | inr => omega
    by_cases ho : o' = some .shared
    · rw [if_pos ho, if_pos (hkept ho)] at hcs
      omega
    · rw [if_neg ho] at hcs
      omega

/-- A step that leaves the owners alone. -/
theorem Owners.keep (h : Owners F pc) (hmode : p'.mode = (pc i).mode) (hback : p'.backsOut = (pc i).backsOut)
    (hexcl : F'.exclusive = F.exclusive) (hshared : F'.shared = F.shared)
    (hlist : F'.locked.toNat + (pc i).hasList.toNat = F.locked.toNat + p'.hasList.toNat) :
    Owners F' (Function.update pc i p') := by
  apply h.of_move rfl hmode rfl hback rfl rfl
  · rw [hexcl]
  · rw [hshared]
  · exact hlist
  · rw [hexcl]
    intro hheld
    exact ⟨id, .inl hheld⟩

theorem Owners.step (h : Owners F pc) (hfits : F.Fits) (hword : m.word = F.word) {empty : Bool}
    (hacc : Account m (pc i) p' e) : Owners (effectFields F empty e) (Function.update pc i p') := by
  cases e with
  | addShared =>
    obtain ⟨hmode, hback, hlist, ⟨hfree, hmode', hback'⟩ | ⟨hheld, hmode', hback'⟩⟩ := hacc
    · rw [hword, hfits.exclusive_test] at hfree
      refine h.of_move hmode hmode' hback hback' rfl hlist rfl rfl rfl ?_
      intro hheld
      rw [show F.exclusive = true from hheld] at hfree
      cases hfree
    · rw [hword, Ne, hfits.exclusive_test, Bool.not_eq_false] at hheld
      refine h.of_move hmode hmode' hback hback' rfl hlist rfl rfl rfl ?_
      intro _
      exact ⟨id, .inl hheld⟩
  | addExclusive =>
    obtain ⟨hfree, hmode, hmode', hback, hlist⟩ := hacc
    rw [hword, hfits.mask_test] at hfree
    apply h.of_move hmode hmode' rfl hback rfl hlist
    · rw [hfree.1]
      rfl
    · rfl
    · rfl
    · intro _
      exact ⟨nofun, .inr hfree.2⟩
  | subShared =>
    obtain ⟨hmode', hback', hlist, hwas⟩ := hacc
    have hpos : 0 < F.shared := by
      cases hwas with
      | inl hheld => exact h.shared_of_mode hheld.1
      | inr hback => exact h.shared_of_backsOut hback.2
    have hless : F.shared - 1 + 1 = F.shared := Nat.sub_add_cancel hpos
    cases hwas with
    | inl hwas | inr hwas =>
      exact h.of_move hwas.1 hmode' hwas.2 hback' rfl hlist rfl hless rfl fun hheld => ⟨nofun, .inl hheld⟩
  | subExclusive =>
    obtain ⟨hmode, hmode', hback, hlist⟩ := hacc
    refine h.of_move hmode hmode' rfl hback rfl hlist ?_ rfl rfl nofun
    rw [h.exclusive_of_mode hmode]
    rfl
  | lockList =>
    obtain ⟨hfree, hlist, hlist', hmode, hback⟩ := hacc
    rw [hword, hfits.locked_test] at hfree
    refine h.keep hmode hback rfl rfl ?_
    rw [hfree, hlist, hlist']
    rfl
  | unlockList | wakeWord =>
    obtain ⟨hlist, hlist', hmode, hback⟩ := hacc
    refine h.keep hmode hback rfl rfl ?_
    rw [h.locked_of_hasList hlist, hlist, hlist']
    rfl
  | _ => exact h.keep hacc.mode hacc.backsOut rfl rfl (by rw [hacc.hasList]; rfl)

theorem Owners.act_word (h : Owners F pc) (hfits : F.Fits) (hword : m.word = F.word)
    (hacc : Account m (pc i) p' e) :
    (m.act i e).word = (effectFields F m.waiters.isEmpty e).word := by
  cases e with
  | addShared => exact (congrArg (· + lwValShared) hword).trans F.word_add_shared
  | addExclusive =>
    have hfree := hacc.1
    rw [hword, hfits.mask_test] at hfree
    exact (congrArg (· + lwValExclusive) hword).trans (Fields.word_add_exclusive hfree.1)
  | subShared =>
    have hpos : 0 < F.shared := by
      cases hacc.2.2.2 with
      | inl hheld => exact h.shared_of_mode hheld.1
      | inr hback => exact h.shared_of_backsOut hback.2
    exact (congrArg (· - lwValShared) hword).trans (Fields.word_sub_shared hpos)
  | subExclusive =>
    exact (congrArg (· - lwValExclusive) hword).trans (Fields.word_sub_exclusive (h.exclusive_of_mode hacc.1))
  | lockList => exact (congrArg (· ||| lwFlagLocked) hword).trans hfits.word_or_locked
  | unlockList => exact (congrArg (· &&& ~~~lwFlagLocked) hword).trans hfits.word_clear_locked
  | setHasWaiters => exact (congrArg (· ||| lwFlagHasWaiters) hword).trans hfits.word_or_hasWaiters
  | clearHasWaiters => exact (congrArg (· &&& ~~~lwFlagHasWaiters) hword).trans hfits.word_clear_hasWaiters
  | setReleaseOk => exact (congrArg (· ||| lwFlagReleaseOk) hword).trans hfits.word_or_releaseOk
  | wakeWord ok => exact (congrArg (LwWord.wakeWord ok m.waiters.isEmpty) hword).trans (hfits.wakeWord_word ok _)
  | _ => exact hword

end LwLock
