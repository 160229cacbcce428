import Pgrust.HeapVisibility

/-!
Hint bits record how transactions have ended. A bit that the visibility rules set for a transaction
that has ended does not change what they answer.
-/
namespace Heap

open XidOrder HeapTupleHeader

/-- The life of a transaction. `committing` and `aborting` have their status in pg_xact and are still
in the procarray. -/
inductive Life
  | running
  | committing
  | aborting
  | committed
  | aborted
  deriving DecidableEq

namespace Life

/-- Its last status is, or will be, committed. -/
def isCommitted : Life → Bool
  | committing | committed => true
  | _ => false

def isAborted : Life → Bool
  | aborting | aborted => true
  | _ => false

/-- Out of the procarray. -/
def ended : Life → Bool
  | committed | aborted => true
  | _ => false

inductive Step : Life → Life → Prop
  | commit : Step running committing
  | abort : Step running aborting
  -- an overflowed subtransaction, or a crash
  | lost : Step running aborted
  | committed : Step committing committed
  | aborted : Step aborting aborted

/-- What a later moment finds, of an earlier one. -/
def Later (l l' : Life) : Prop :=
  l' = l ∨ l = running ∨ (l = committing ∧ l' = committed) ∨ (l = aborting ∧ l' = aborted)

theorem Step.later (h : Step l l') : Later l l' := by
  cases h with
  | commit | abort | lost => exact .inr (.inl rfl)
  | committed => exact .inr (.inr (.inl ⟨rfl, rfl⟩))
  | aborted => exact .inr (.inr (.inr ⟨rfl, rfl⟩))

variable {l l' : Life}

section

variable (h : Later l l')
include h

theorem Later.trans (h' : Later l' l'') : Later l l'' := by
  cases l <;> cases l' <;> cases l'' <;> simp_all [Later]

theorem Later.isCommitted (hl : l.isCommitted = true) : l'.isCommitted = true := by
  cases l <;> cases l' <;> simp_all [Later, Life.isCommitted]

theorem Later.isAborted (hl : l.isAborted = true) : l'.isAborted = true := by
  cases l <;> cases l' <;> simp_all [Later, Life.isAborted]

theorem Later.ended (hl : l.ended = true) : l' = l := by
  cases l <;> cases l' <;> simp_all [Later, Life.ended]

theorem Later.not_running (hl : l ≠ running) : l' ≠ running := by
  cases l <;> cases l' <;> simp_all [Later]

end

theorem not_isAborted (h : l.isCommitted = true) : l.isAborted = false := by
  cases l <;> simp_all [Life.isCommitted, Life.isAborted]

theorem isCommitted_ne_running (h : l.isCommitted = true) : l ≠ running := by
  rintro rfl
  cases h

theorem isAborted_ne_running (h : l.isAborted = true) : l ≠ running := by
  rintro rfl
  cases h

/-- Who has ended without being committed is aborted. -/
theorem aborted_of_ended (h : l.ended = true) (hc : l.isCommitted = false) : l = aborted := by
  cases l <;> simp_all [Life.ended, Life.isCommitted]

theorem committed_of_ended (h : l.ended = true) (hc : l.isCommitted = true) : l = committed := by
  cases l <;> simp_all [Life.ended, Life.isCommitted]

end Life

variable {members : TransactionId → List MultiXactMember} {life : TransactionId → Life}
  {t t' : HeapTupleHeader} {o : Oracles}

/-- Who updates or deletes, when it is not only locked. -/
def updater (members : TransactionId → List MultiXactMember) (t : HeapTupleHeader) : TransactionId :=
  if t.isMulti then multiXactIdGetUpdateXid members t.xmax else t.xmax

/-- The transactions in `t_xmax`. -/
def xmaxXids (members : TransactionId → List MultiXactMember) (t : HeapTupleHeader) : List TransactionId :=
  if t.isMulti then (members t.xmax).map (·.xid) else [t.xmax]

/-- The hint bits are true of how the transactions have ended or are about to. -/
structure HintsTrue (members : TransactionId → List MultiXactMember) (life : TransactionId → Life)
    (t : HeapTupleHeader) : Prop where
  xminCommitted : t.xminCommitted = true → (life t.xmin).isCommitted = true
  xminInvalid : t.xminInvalid = true → (life t.xmin).isAborted = true
  xmaxCommitted : t.has heapXmaxCommitted = true → t.isMulti = false →
    life t.xmax ≠ .running ∧ (t.lockedOnly = false → (life t.xmax).isCommitted = true)
  xmaxInvalid : t.has heapXmaxInvalid = true → t.lockedOnly = false → (life (updater members t)).isAborted = true
  lockersGone : t.has heapXmaxInvalid = true → t.lockedOnly = true →
    heapLockedUpgraded t.infomask = false → ∀ x ∈ xmaxXids members t, life x ≠ .running

/-- A hint that may be set: the transaction it is about has ended. -/
inductive Hint (members : TransactionId → List MultiXactMember) (life : TransactionId → Life)
    (t : HeapTupleHeader) : UInt16 → Prop
  | xminCommitted (hc : t.has heapXminCommitted = false) (hi : t.has heapXminInvalid = false)
      (h : life t.xmin = .committed) : Hint members life t heapXminCommitted
  | xminInvalid (hc : t.has heapXminCommitted = false) (hi : t.has heapXminInvalid = false)
      (h : life t.xmin = .aborted) : Hint members life t heapXminInvalid
  | xmaxCommitted (hi : t.has heapXmaxInvalid = false) (hlock : t.lockedOnly = false)
      (hmulti : t.isMulti = false) (h : life t.xmax = .committed) : Hint members life t heapXmaxCommitted
  | xmaxInvalid (hlock : t.lockedOnly = false) (h : life (updater members t) = .aborted) :
      Hint members life t heapXmaxInvalid
  | lockersGone (hlock : t.lockedOnly = true)
      (h : heapLockedUpgraded t.infomask = false → ∀ x ∈ xmaxXids members t, life x ≠ .running) :
      Hint members life t heapXmaxInvalid

/-- A header with further hints. -/
inductive Hinted (members : TransactionId → List MultiXactMember) (life : TransactionId → Life)
    (t : HeapTupleHeader) : HeapTupleHeader → Prop
  | refl : Hinted members life t t
  | set {t' : HeapTupleHeader} {flag : UInt16} (h : Hinted members life t t')
      (hint : Hint members life t' flag) : Hinted members life t (t'.set flag)

/-- None of the `HEAP_MOVED` bits. -/
def Unmoved (t : HeapTupleHeader) : Prop := t.has heapMovedOff = false ∧ t.has heapMovedIn = false

/-- Hints are apart from the flags that say what kind of `t_xmax` there is. -/
structure Apart (flag : UInt16) : Prop where
  isMulti : flag &&& heapXmaxIsMulti = 0
  lockOnly : flag &&& heapXmaxLockOnly = 0
  mask : flag &&& (heapXmaxIsMulti ||| heapLockMask) = 0
  locks : flag &&& (heapXmaxExclLock ||| heapXmaxKeyshrLock) = 0
  movedOff : flag &&& heapMovedOff = 0
  movedIn : flag &&& heapMovedIn = 0

theorem Hint.apart (h : Hint members life t flag) : Apart flag := by
  cases h <;> exact ⟨by decide, by decide, by decide, by decide, by decide, by decide⟩

namespace Apart

variable {flag : UInt16} (h : Apart flag)

include h

theorem isMulti_set : (t.set flag).isMulti = t.isMulti := has_set_of_disjoint h.isMulti

theorem lockedOnly_set : (t.set flag).lockedOnly = t.lockedOnly := HeapTupleHeader.lockedOnly_set h.lockOnly h.mask

theorem upgraded_set : heapLockedUpgraded (t.set flag).infomask = heapLockedUpgraded t.infomask := by
  rw [heapLockedUpgraded, HeapTupleHeader.set, or_and_of_disjoint h.isMulti,
    or_and_of_disjoint h.lockOnly, or_and_of_disjoint h.locks]
  rfl

theorem updater_set : updater members (t.set flag) = updater members t := by
  rw [updater, h.isMulti_set]
  rfl

theorem xmaxXids_set : xmaxXids members (t.set flag) = xmaxXids members t := by
  rw [xmaxXids, h.isMulti_set]
  rfl

theorem unmoved_set (ht : Unmoved t) : Unmoved (t.set flag) := by
  rw [Unmoved, has_set_of_disjoint h.movedOff, has_set_of_disjoint h.movedIn]
  exact ht

end Apart

/-- What the rules ask about a transaction that has ended, they are told. -/
structure Knows (o : Oracles) (life : TransactionId → Life) : Prop where
  current : ∀ x, o.isCurrent x = true → life x = .running
  committed : ∀ x, (life x).isCommitted = true → ∀ k, o.didCommit k x = true
  notCommitted : ∀ x, (life x).isAborted = true → ∀ k, o.didCommit k x = false
  ended : ∀ x, (life x).ended = true → ∀ k, o.isInProgress k x = false

theorem Knows.not_current (hk : Knows o life) (hx : life x ≠ .running) : o.isCurrent x = false :=
  Bool.eq_false_iff.mpr fun hc => hx (hk.current x hc)

theorem Knows.of_committed (hk : Knows o life) (hx : life x = .committed) :
    o.isCurrent x = false ∧ (∀ k, o.isInProgress k x = false) ∧ ∀ k, o.didCommit k x = true :=
  ⟨hk.not_current (by rw [hx]; nofun), hk.ended x (by rw [hx]; rfl), hk.committed x (by rw [hx]; rfl)⟩

theorem Knows.of_aborted (hk : Knows o life) (hx : life x = .aborted) :
    o.isCurrent x = false ∧ (∀ k, o.isInProgress k x = false) ∧ ∀ k, o.didCommit k x = false :=
  ⟨hk.not_current (by rw [hx]; nofun), hk.ended x (by rw [hx]; rfl), hk.notCommitted x (by rw [hx]; rfl)⟩

/-- The rules for `t_xmax` do not look at the hints for `t_xmin`. -/
theorem mvccXmax_set_xmin (ha : Apart flag) (hi : flag &&& heapXmaxInvalid = 0)
    (hc : flag &&& heapXmaxCommitted = 0) :
    (mvccXmax o snapshot (t.set flag)).1 = (mvccXmax o snapshot t).1 := by
  rw [mvccXmax, mvccXmax, ha.isMulti_set, ha.lockedOnly_set, has_set_of_disjoint hi,
    has_set_of_disjoint hc, xmax_set]
  simp [apply_ite Prod.fst]

theorem vacuumXmax_set_xmin (ha : Apart flag) (hi : flag &&& heapXmaxInvalid = 0)
    (hc : flag &&& heapXmaxCommitted = 0) :
    (vacuumXmax o (t.set flag)).result = (vacuumXmax o t).result ∧
      (vacuumXmax o (t.set flag)).deadAfter = (vacuumXmax o t).deadAfter := by
  rw [vacuumXmax, vacuumXmax, ha.isMulti_set, ha.lockedOnly_set, ha.upgraded_set,
    has_set_of_disjoint hi, has_set_of_disjoint hc,
    xmax_set]
  simp only [Verdict.plain, apply_ite Verdict.result, apply_ite Verdict.deadAfter]
  exact ⟨trivial, trivial⟩

theorem apart_xminCommitted : Apart heapXminCommitted :=
  ⟨by decide, by decide, by decide, by decide, by decide, by decide⟩

/-- The answer of `HeapTupleSatisfiesMVCC`, whether its hint sticks or not. -/
theorem mvcc_answer (ht : Unmoved t) : (heapTupleSatisfiesMVCC o snapshot t).1 = if !t.has heapXminCommitted then
        if t.has heapXminInvalid then false
        else if o.isCurrent t.xmin then (mvccOwn o snapshot t).1
        else if xidInMVCCSnapshot o.topmost snapshot t.xmin then false
        else if o.didCommit 0 t.xmin then (mvccXmax o snapshot t).1
        else false
      else if !t.has heapXminInvalid && xidInMVCCSnapshot o.topmost snapshot t.xmin then false
      else (mvccXmax o snapshot t).1 := by
  have hset : (mvccXmax o snapshot (setHintBits o t heapXminCommitted t.xmin)).1 = (mvccXmax o snapshot t).1 := by
    rw [setHintBits]
    split_ifs
    · rfl
    · exact mvccXmax_set_xmin apart_xminCommitted (by decide) (by decide)
  grind [heapTupleSatisfiesMVCC, xminInvalid_eq, xminFrozen_eq, xminCommitted_eq, Unmoved]

/-- What a verdict says, the header apart. -/
def Verdict.answer (v : Verdict) : HtsvResult × TransactionId := (v.result, v.deadAfter)

/-- The answer of `HeapTupleSatisfiesVacuumHorizon`, whether its hint sticks or not. -/
theorem vacuum_answer (ht : Unmoved t) :
    (heapTupleSatisfiesVacuumHorizon o t).answer = if !t.has heapXminCommitted then
        if t.has heapXminInvalid then (.dead, invalidTransactionId)
        else if o.isCurrent t.xmin then (vacuumOwn o t).answer
        else if o.isInProgress 0 t.xmin then (.insertInProgress, invalidTransactionId)
        else if o.didCommit 1 t.xmin then (vacuumXmax o t).answer
        else (.dead, invalidTransactionId)
      else (vacuumXmax o t).answer := by
  have hset : (vacuumXmax o (setHintBits o t heapXminCommitted t.xmin)).answer = (vacuumXmax o t).answer := by
    rw [setHintBits]
    split_ifs
    · rfl
    · have hsame := vacuumXmax_set_xmin (o := o) (t := t) apart_xminCommitted (by decide) (by decide)
      rw [Verdict.answer, hsame.1, hsame.2]
      rfl
  grind [heapTupleSatisfiesVacuumHorizon, xminInvalid_eq, xminCommitted_eq, Unmoved, Verdict.answer, Verdict.plain]

section SetHint

variable (hk : Knows o life) (hlock : t.lockedOnly = false)
include hk hlock

section

variable (hi : t.has heapXmaxInvalid = false) (hmulti : t.isMulti = false) (h : life t.xmax = .committed)
include hi hmulti h

theorem mvccXmax_set_committed :
    (mvccXmax o snapshot (t.set heapXmaxCommitted)).1 = (mvccXmax o snapshot t).1 := by
  have hint : Hint o.members life t heapXmaxCommitted := .xmaxCommitted hi hlock hmulti h
  obtain ⟨hcur, -, hdid⟩ := hk.of_committed h
  rw [mvccXmax, mvccXmax, hint.apart.isMulti_set, hint.apart.lockedOnly_set, has_set_of_disjoint (by decide),
    has_set_self (k := 10) rfl, xmax_set, hi, hlock, hmulti, hcur, hdid]
  cases t.has heapXmaxCommitted <;> cases xidInMVCCSnapshot o.topmost snapshot t.xmax <;> rfl

theorem vacuumXmax_set_committed : (vacuumXmax o (t.set heapXmaxCommitted)).answer = (vacuumXmax o t).answer := by
  have hint : Hint o.members life t heapXmaxCommitted := .xmaxCommitted hi hlock hmulti h
  obtain ⟨-, hprog, hdid⟩ := hk.of_committed h
  rw [vacuumXmax, vacuumXmax, hint.apart.isMulti_set, hint.apart.lockedOnly_set, has_set_of_disjoint (by decide),
    has_set_self (k := 10) rfl, hi, hlock, hmulti, hprog, hdid]
  cases t.has heapXmaxCommitted <;> rfl

end

variable (h : life (updater o.members t) = .aborted)
include h

theorem mvccOwn_of_aborted (hcid : ¬snapshot.curcid ≤ o.cmin) : (mvccOwn o snapshot t).1 = true := by
  have hcur := (hk.of_aborted h).1
  grind [mvccOwn, updater]

theorem vacuumOwn_of_aborted : (vacuumOwn o t).answer = (.insertInProgress, invalidTransactionId) := by
  have hcur := (hk.of_aborted h).1
  grind [vacuumOwn, heapTupleHeaderGetUpdateXid, updater, Verdict.answer, Verdict.plain]

variable (htrue : HintsTrue o.members life t)
include htrue

/-- With the updater aborted, `t_xmax` hides nothing. -/
theorem mvccXmax_of_aborted : (mvccXmax o snapshot t).1 = true := by
  obtain ⟨hcur, -, hdid⟩ := hk.of_aborted h
  have hcommitted := htrue.xmaxCommitted
  grind [mvccXmax, updater, Life.isCommitted]

theorem vacuumXmax_of_aborted : (vacuumXmax o t).answer = (.live, invalidTransactionId) := by
  obtain ⟨-, hprog, hdid⟩ := hk.of_aborted h
  have hcommitted := htrue.xmaxCommitted
  grind [vacuumXmax, updater, Verdict.answer, Verdict.plain, Life.isCommitted]

end SetHint

section

variable (h : t.has heapXmaxInvalid = true ∨ t.lockedOnly = true)
include h

/-- Under `HEAP_XMAX_INVALID` nothing is asked about `t_xmax`, nor when it only locks. -/
theorem mvccXmax_unasked : (mvccXmax o snapshot t).1 = true := by
  grind [mvccXmax]

theorem mvccOwn_unasked : (mvccOwn o snapshot t).1 = !decide (snapshot.curcid ≤ o.cmin) := by
  grind [mvccOwn]

theorem vacuumXmax_unasked : (vacuumXmax o t).answer = (.live, invalidTransactionId) := by
  grind [vacuumXmax, Verdict.answer, Verdict.plain]

theorem vacuumOwn_unasked : (vacuumOwn o t).answer = (.insertInProgress, invalidTransactionId) := by
  grind [vacuumOwn, Verdict.answer, Verdict.plain]

end

/-- The rules for one's own tuples do not look at `HEAP_XMAX_COMMITTED`. -/
theorem mvccOwn_set_committed (ha : Apart heapXmaxCommitted) :
    (mvccOwn o snapshot (t.set heapXmaxCommitted)).1 = (mvccOwn o snapshot t).1 := by
  rw [mvccOwn, mvccOwn, ha.isMulti_set, ha.lockedOnly_set, xmax_set, has_set_of_disjoint (by decide)]
  simp [apply_ite Prod.fst]

theorem vacuumOwn_set_committed (ha : Apart heapXmaxCommitted) :
    (vacuumOwn o (t.set heapXmaxCommitted)).answer = (vacuumOwn o t).answer := by
  have hi : (t.set heapXmaxCommitted).has heapXmaxInvalid = t.has heapXmaxInvalid := has_set_of_disjoint (by decide)
  have hlock : (t.set heapXmaxCommitted).has heapXmaxLockOnly = t.has heapXmaxLockOnly :=
    has_set_of_disjoint ha.lockOnly
  rw [vacuumOwn, vacuumOwn, heapTupleHeaderGetUpdateXid, heapTupleHeaderIsOnlyLocked, ha.isMulti_set, ha.lockedOnly_set, hi, hlock]
  simp only [apply_ite Verdict.answer]
  rfl

section Equal

variable {flag : UInt16} (hk : Knows o life) (htrue : HintsTrue o.members life t) (ht : Unmoved t)

include hk htrue ht

/-- A hint about a transaction that has ended changes no answer to a snapshot. -/
theorem Hint.mvcc_eq (hint : Hint o.members life t flag) :
    (heapTupleSatisfiesMVCC o snapshot (t.set flag)).1 = (heapTupleSatisfiesMVCC o snapshot t).1 := by
  have ha := hint.apart
  rw [mvcc_answer (ha.unmoved_set ht), mvcc_answer ht, xmin_set]
  cases hint with
  | xminCommitted hc hi h =>
    obtain ⟨hcur, -, hdid⟩ := hk.of_committed h
    rw [has_set_self (k := 8) rfl, has_set_of_disjoint (by decide), mvccXmax_set_xmin ha (by decide) (by decide)]
    grind
  | xminInvalid hc hi h =>
    obtain ⟨hcur, -, hdid⟩ := hk.of_aborted h
    rw [has_set_of_disjoint (by decide)]
    grind
  | xmaxCommitted hi hlock hmulti h =>
    rw [has_set_of_disjoint (by decide), has_set_of_disjoint (by decide),
      mvccXmax_set_committed hk hlock hi hmulti h, mvccOwn_set_committed ha]
  | xmaxInvalid hlock h =>
    have hown : _ → (mvccOwn o snapshot t).1 = true := mvccOwn_of_aborted hk hlock h
    rw [has_set_of_disjoint (by decide), has_set_of_disjoint (by decide),
      mvccOwn_unasked (.inl (has_set_self (k := 11) rfl)), mvccXmax_unasked (.inl (has_set_self (k := 11) rfl)),
      mvccXmax_of_aborted hk hlock h htrue]
    grind [mvccOwn]
  | lockersGone hlock =>
    rw [has_set_of_disjoint (by decide), has_set_of_disjoint (by decide), mvccXmax_unasked (.inr hlock),
      mvccOwn_unasked (.inr hlock), mvccXmax_unasked (.inr (ha.lockedOnly_set.trans hlock)),
      mvccOwn_unasked (.inr (ha.lockedOnly_set.trans hlock))]

/-- Nor a verdict of vacuum. -/
theorem Hint.vacuum_eq (hint : Hint o.members life t flag) :
    (heapTupleSatisfiesVacuumHorizon o (t.set flag)).answer = (heapTupleSatisfiesVacuumHorizon o t).answer := by
  have ha := hint.apart
  rw [vacuum_answer (ha.unmoved_set ht), vacuum_answer ht, xmin_set]
  cases hint with
  | xminCommitted hc hi h =>
    obtain ⟨hcur, hprog, hdid⟩ := hk.of_committed h
    have hsame := vacuumXmax_set_xmin (o := o) (t := t) ha (by decide) (by decide)
    rw [has_set_self (k := 8) rfl]
    grind [Verdict.answer]
  | xminInvalid hc hi h =>
    obtain ⟨hcur, hprog, hdid⟩ := hk.of_aborted h
    rw [has_set_of_disjoint (by decide)]
    grind
  | xmaxCommitted hi hlock hmulti h =>
    rw [has_set_of_disjoint (by decide), has_set_of_disjoint (by decide),
      vacuumXmax_set_committed hk hlock hi hmulti h, vacuumOwn_set_committed ha]
  | xmaxInvalid hlock h =>
    rw [has_set_of_disjoint (by decide), has_set_of_disjoint (by decide),
      vacuumXmax_unasked (.inl (has_set_self (k := 11) rfl)), vacuumXmax_of_aborted hk hlock h htrue,
      vacuumOwn_of_aborted hk hlock h, vacuumOwn_unasked (.inl (has_set_self (k := 11) rfl))]
  | lockersGone hlock =>
    rw [has_set_of_disjoint (by decide), has_set_of_disjoint (by decide), vacuumXmax_unasked (.inr hlock),
      vacuumOwn_unasked (.inr hlock), vacuumXmax_unasked (.inr (ha.lockedOnly_set.trans hlock)),
      vacuumOwn_unasked (.inr (ha.lockedOnly_set.trans hlock))]

end Equal

namespace HintsTrue

variable {flag : UInt16} (h : HintsTrue members life t)

include h

theorem set (hint : Hint members life t flag) : HintsTrue members life (t.set flag) := by
  have ha := hint.apart
  have hmulti := ha.isMulti_set (t := t)
  have hlocked := ha.lockedOnly_set (t := t)
  have hupgraded := ha.upgraded_set (t := t)
  have hupdater : updater members (t.set flag) = updater members t := ha.updater_set
  have hxids : xmaxXids members (t.set flag) = xmaxXids members t := ha.xmaxXids_set
  have hother := fun g => @has_set_of_disjoint t flag g
  have h₁ := h.xminCommitted
  have h₂ := h.xminInvalid
  have h₃ := h.xmaxCommitted
  have h₄ := h.xmaxInvalid
  have h₅ := h.lockersGone
  cases hint with
  | xminCommitted =>
    have hself : (t.set heapXminCommitted).has heapXminCommitted = true := has_set_self (k := 8) rfl
    have hinvalid := hother heapXmaxInvalid (by decide)
    have hcommitted := hother heapXmaxCommitted (by decide)
    constructor <;> grind [xmin_set, xmax_set, xminCommitted_eq, xminInvalid_eq, Life.isCommitted]
  | xminInvalid =>
    have hxmin := hother heapXminCommitted (by decide)
    have hinvalid := hother heapXmaxInvalid (by decide)
    have hcommitted := hother heapXmaxCommitted (by decide)
    constructor <;> grind [xmin_set, xmax_set, xminCommitted_eq, xminInvalid_eq, Life.isAborted]
  | xmaxCommitted =>
    have hxmin := hother heapXminCommitted (by decide)
    have hxmin' := hother heapXminInvalid (by decide)
    have hinvalid := hother heapXmaxInvalid (by decide)
    constructor <;> grind [xmin_set, xmax_set, xminCommitted_eq, xminInvalid_eq, Life.isCommitted]
  | xmaxInvalid | lockersGone =>
    have hxmin := hother heapXminCommitted (by decide)
    have hxmin' := hother heapXminInvalid (by decide)
    have hcommitted := hother heapXmaxCommitted (by decide)
    constructor <;> grind [xmin_set, xmax_set, xminCommitted_eq, xminInvalid_eq, Life.isAborted]

theorem later (hl : ∀ x, (life x).Later (life' x)) : HintsTrue members life' t := by
  constructor
  case xminCommitted => exact fun hc => (hl _).isCommitted (h.xminCommitted hc)
  case xminInvalid => exact fun hi => (hl _).isAborted (h.xminInvalid hi)
  case xmaxCommitted =>
    intro hc hmulti
    obtain ⟨hrun, hcommitted⟩ := h.xmaxCommitted hc hmulti
    exact ⟨(hl _).not_running hrun, fun hlock => (hl _).isCommitted (hcommitted hlock)⟩
  case xmaxInvalid => exact fun hi hlock => (hl _).isAborted (h.xmaxInvalid hi hlock)
  case lockersGone => exact fun hi hlock hup x hx => (hl x).not_running (h.lockersGone hi hlock hup x hx)

end HintsTrue

theorem Hint.later (h : Hint members life t flag) (hl : ∀ x, (life x).Later (life' x)) :
    Hint members life' t flag := by
  have hended : ∀ {x : TransactionId} {l : Life}, life x = l → l.ended = true → life' x = l := by
    intro x l hx hend
    rw [← hx] at hend ⊢
    exact (hl x).ended hend
  cases h with
  | xminCommitted hc hi hlife => exact .xminCommitted hc hi (hended hlife rfl)
  | xminInvalid hc hi hlife => exact .xminInvalid hc hi (hended hlife rfl)
  | xmaxCommitted hi hlock hmulti hlife => exact .xmaxCommitted hi hlock hmulti (hended hlife rfl)
  | xmaxInvalid hlock hlife => exact .xmaxInvalid hlock (hended hlife rfl)
  | lockersGone hlock hgone => exact .lockersGone hlock fun hup x hx => (hl x).not_running (hgone hup x hx)

namespace Hinted

section

variable (h : Hinted members life t t')
include h

theorem later (hl : ∀ x, (life x).Later (life' x)) : Hinted members life' t t' := by
  induction h with
  | refl => exact .refl
  | set _ hint ih => exact ih.set (hint.later hl)

theorem trans (h' : Hinted members life t' t'') : Hinted members life t t'' := by
  induction h' with
  | refl => exact h
  | set _ hint ih => exact ih.set hint

theorem hintsTrue (htrue : HintsTrue members life t) : HintsTrue members life t' := by
  induction h with
  | refl => exact htrue
  | set _ hint ih => exact ih.set hint

theorem unmoved (ht : Unmoved t) : Unmoved t' := by
  induction h with
  | refl => exact ht
  | set _ hint ih => exact hint.apart.unmoved_set ih

/-- What hints leave alone. -/
theorem same : t'.xmin = t.xmin ∧ t'.xmax = t.xmax ∧ t'.isMulti = t.isMulti ∧ t'.lockedOnly = t.lockedOnly := by
  induction h with
  | refl => exact ⟨rfl, rfl, rfl, rfl⟩
  | set _ hint ih =>
    rw [hint.apart.isMulti_set, hint.apart.lockedOnly_set]
    exact ih

end

/-- Hints change no answer. -/
theorem answers_eq (h : Hinted o.members life t t') (hk : Knows o life)
    (htrue : HintsTrue o.members life t) (ht : Unmoved t) :
    (∀ snapshot, (heapTupleSatisfiesMVCC o snapshot t').1 = (heapTupleSatisfiesMVCC o snapshot t).1) ∧
      (heapTupleSatisfiesVacuumHorizon o t').answer = (heapTupleSatisfiesVacuumHorizon o t).answer := by
  induction h with
  | refl => exact ⟨fun _ => rfl, rfl⟩
  | set h hint ih =>
    have htrue' := h.hintsTrue htrue
    have ht' := h.unmoved ht
    constructor
    · intro snapshot
      rw [hint.mvcc_eq hk htrue' ht']
      exact ih.1 snapshot
    · rw [hint.vacuum_eq hk htrue' ht']
      exact ih.2

end Hinted

end Heap
