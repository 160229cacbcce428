import Pgrust.HeapVisibilityHints

/-!
One call of a visibility rule, while transactions go on: the hints it sets are about transactions
that have ended, and what vacuum calls dead is hidden from snapshots that do not begin before its
horizon.
-/
namespace Heap

open XidOrder Bool

variable {o : Oracles} {life : TransactionId → Life} {t : HeapTupleHeader} {snapshot : Snapshot}
  {oldest : TransactionId}

/-- What a call learns about transactions that have ended, at the moment it is over. -/
structure Learns (o : Oracles) (life : TransactionId → Life) : Prop where
  ended : ∀ k x, o.isInProgress k x = false → (life x).ended = true
  didCommit : ∀ k x, o.didCommit k x = true → (life x).isCommitted = true
  didNot : ∀ k x, o.isInProgress k x = false → o.didCommit (k + 1) x = false → (life x).isCommitted = false

namespace Learns

variable (h : Learns o life) {k : Nat} {x : TransactionId}

include h

theorem committed (hprog : o.isInProgress k x = false) (hdid : o.didCommit (k + 1) x = true) :
    life x = .committed :=
  Life.committed_of_ended (h.ended k x hprog) (h.didCommit _ x hdid)

theorem aborted (hprog : o.isInProgress k x = false) (hdid : ¬o.didCommit (k + 1) x = true) : life x = .aborted :=
  Life.aborted_of_ended (h.ended k x hprog) (h.didNot k x hprog (eq_false_iff.mpr hdid))

theorem members_ended (hrun : anyInProgress o k ms = false) : ∀ m ∈ ms, (life m.xid).ended = true := by
  induction ms generalizing k with
  | nil => nofun
  | cons m ms ih =>
    rw [anyInProgress, or_eq_false_iff] at hrun
    intro m' hm'
    cases List.mem_cons.mp hm' with
    | inl heq => rw [heq]; exact h.ended k _ hrun.1
    | inr hmem => exact ih hrun.2 m' hmem

end Learns

theorem hinted_setHintBits (hint : Hint o.members life t flag) :
    Hinted o.members life t (setHintBits o t flag xid) := by
  rw [setHintBits]
  split_ifs
  · exact .refl
  · exact Hinted.refl.set hint

theorem ended_ne_running {l : Life} (h : l.ended = true) : l ≠ .running := by
  rintro rfl
  cases h

/-- Members that are found out of the procarray. -/
theorem Hint.ofMulti (hl : Learns o life) (hlock : t.lockedOnly = true) (hmulti : t.isMulti = true)
    (hrun : ¬(!heapLockedUpgraded t.infomask && multiXactIdIsRunning o 2 t.xmax) = true) :
    Hint o.members life t heapXmaxInvalid := by
  apply Hint.lockersGone hlock
  intro hup x hx
  have hnot := eq_false_iff.mpr hrun
  rw [hup, Bool.not_false, Bool.true_and, multiXactIdIsRunning, or_eq_false_iff] at hnot
  rw [xmaxXids, if_pos hmulti] at hx
  obtain ⟨m, hm, rfl⟩ := List.mem_map.mp hx
  exact ended_ne_running (hl.members_ended hnot.2 m hm)

theorem Hint.ofLocker (hl : Learns o life) (hlock : t.lockedOnly = true) (hmulti : ¬t.isMulti = true)
    (hprog : ¬o.isInProgress 2 t.xmax = true) : Hint o.members life t heapXmaxInvalid := by
  apply Hint.lockersGone hlock
  intro _ x hx
  rw [xmaxXids, if_neg hmulti] at hx
  rw [List.mem_singleton.mp hx]
  exact ended_ne_running (hl.ended 2 _ (eq_false_iff.mpr hprog))

/-- The hints that vacuum sets for `t_xmax`. -/
theorem vacuumXmax_hinted (hl : Learns o life) : Hinted o.members life t (vacuumXmax o t).header := by
  have hlocker := @Hint.ofLocker o life t hl
  have hmulti := @Hint.ofMulti o life t hl
  have hcommitted := @Learns.committed o life hl 2
  have haborted := @Learns.aborted o life hl 2
  grind [vacuumXmax, Verdict.plain, updater, hinted_setHintBits, Hinted.refl, Hint.xmaxInvalid, Hint.xmaxCommitted]

theorem xminFree (hc : (!t.has heapXminCommitted) = true) (hi : ¬t.xminInvalid = true) :
    t.has heapXminCommitted = false ∧ t.has heapXminInvalid = false := by
  rw [HeapTupleHeader.xminInvalid_eq, hc] at hi
  exact ⟨not_eq_true' _ ▸ hc, eq_false_iff.mpr hi⟩

theorem vacuumOwn_header : (vacuumOwn o t).header = t := by
  simp [vacuumOwn, apply_ite Verdict.header, Verdict.plain]

theorem vacuum_hinted (oldest) (hl : Learns o life) (ht : Unmoved t) :
    Hinted o.members life t (heapTupleSatisfiesVacuum o oldest t).header := by
  have hheader : (heapTupleSatisfiesVacuum o oldest t).header = (heapTupleSatisfiesVacuumHorizon o t).header := by
    rw [heapTupleSatisfiesVacuum]
    split_ifs <;> rfl
  have hthen : ∀ xid, Hint o.members life t heapXminCommitted →
      Hinted o.members life t (vacuumXmax o (setHintBits o t heapXminCommitted xid)).header :=
    fun _ hint => (hinted_setHintBits hint).trans (vacuumXmax_hinted hl)
  have hxmax := @vacuumXmax_hinted o life t hl
  have hcommitted := @Learns.committed o life hl 0
  have haborted := @Learns.aborted o life hl 0
  grind [heapTupleSatisfiesVacuumHorizon, HeapTupleHeader.xminCommitted_eq, Unmoved, Verdict.plain, vacuumOwn_header,
    xminFree, hinted_setHintBits, Hinted.refl, Hint.xminCommitted, Hint.xminInvalid]

/-- A transaction that a snapshot leaves out, and that is not the backend's own, has ended. -/
def Settles (o : Oracles) (snapshot : Snapshot) (life : TransactionId → Life) : Prop :=
  ∀ x, xidInMVCCSnapshot o.topmost snapshot x = false → o.isCurrent x = false →
    ∀ k, life x = if o.didCommit k x then .committed else .aborted

theorem mvccXmax_hinted (hs : Settles o snapshot life) : Hinted o.members life t (mvccXmax o snapshot t).2 := by
  grind [mvccXmax, Settles, updater, hinted_setHintBits, Hinted.refl, Hint.xmaxInvalid, Hint.xmaxCommitted]

/-- The deleter of a tuple that its backend has inserted, and that is not its own any more, is a
subtransaction that has aborted. -/
def OwnDeleter (o : Oracles) (life : TransactionId → Life) (t : HeapTupleHeader) : Prop :=
  o.isCurrent t.xmin = true → t.has heapXmaxInvalid = false → t.lockedOnly = false →
    t.isMulti = false → o.isCurrent t.xmax = false → life t.xmax = .aborted

theorem mvccOwn_hinted (hown : OwnDeleter o life t) (hcur : o.isCurrent t.xmin = true) :
    Hinted o.members life t (mvccOwn o snapshot t).2 := by
  grind [mvccOwn, OwnDeleter, updater, hinted_setHintBits, Hinted.refl, Hint.xmaxInvalid]

theorem mvcc_hinted (hs : Settles o snapshot life) (hown : OwnDeleter o life t) (ht : Unmoved t) :
    Hinted o.members life t (heapTupleSatisfiesMVCC o snapshot t).2 := by
  have hthen : ∀ xid, Hint o.members life t heapXminCommitted →
      Hinted o.members life t (mvccXmax o snapshot (setHintBits o t heapXminCommitted xid)).2 :=
    fun _ hint => (hinted_setHintBits hint).trans (mvccXmax_hinted hs)
  have hxmax := @mvccXmax_hinted o life t snapshot hs
  have howner := @mvccOwn_hinted o life t snapshot hown
  grind [heapTupleSatisfiesMVCC, HeapTupleHeader.xminCommitted_eq, Unmoved, Settles, xminFree, hinted_setHintBits,
    Hinted.refl, Hint.xminCommitted, Hint.xminInvalid]

theorem vacuum_answer_congr
    (h : (heapTupleSatisfiesVacuumHorizon o t').answer = (heapTupleSatisfiesVacuumHorizon o t).answer) :
    (heapTupleSatisfiesVacuum o oldest t').answer = (heapTupleSatisfiesVacuum o oldest t).answer := by
  have hresult : (heapTupleSatisfiesVacuumHorizon o t').result = (heapTupleSatisfiesVacuumHorizon o t).result :=
    congrArg Prod.fst h
  have hafter : (heapTupleSatisfiesVacuumHorizon o t').deadAfter =
      (heapTupleSatisfiesVacuumHorizon o t).deadAfter :=
    congrArg Prod.snd h
  rw [heapTupleSatisfiesVacuum, heapTupleSatisfiesVacuum, hresult, hafter]
  split_ifs
  · rfl
  · exact h

theorem not_inSnapshot_of_precedes (h : transactionIdPrecedes x snapshot.xmin = true) :
    xidInMVCCSnapshot topmost snapshot x = false := by
  rw [xidInMVCCSnapshot, if_pos h]

/-- Nobody whose snapshot does not begin before `oldest` will see the tuple. -/
def Doomed (members : TransactionId → List MultiXactMember) (life : TransactionId → Life)
    (t : HeapTupleHeader) (oldest : TransactionId) : Prop :=
  (life t.xmin).isAborted = true ∨ (life t.xmin).isCommitted = true ∧ t.lockedOnly = false ∧
      (life (updater members t)).isCommitted = true ∧
      transactionIdPrecedes (updater members t) oldest = true

theorem vacuumXmax_not_dead : (vacuumXmax o t).result ≠ .dead := by
  simp only [vacuumXmax]
  split_ifs <;> intro h <;> cases h

theorem vacuumOwn_result : (vacuumOwn o t).result = .insertInProgress ∨
    (vacuumOwn o t).result = .deleteInProgress := by
  simp only [vacuumOwn, Verdict.plain]
  split_ifs <;> simp

/-- Recently dead is what a committed transaction has updated or deleted. -/
theorem vacuumXmax_recentlyDead (hl : Learns o life) (htrue : HintsTrue o.members life t)
    (h : (vacuumXmax o t).result = .recentlyDead) :
    t.lockedOnly = false ∧ (vacuumXmax o t).deadAfter = updater o.members t ∧
      (life (updater o.members t)).isCommitted = true := by
  have hdid := hl.didCommit 3
  have hcommitted := htrue.xmaxCommitted
  grind [vacuumXmax, updater, Verdict.plain]

/-- What vacuum calls dead is doomed. -/
theorem doomed_of_dead (hl : Learns o life) (htrue : HintsTrue o.members life t) (ht : Unmoved t)
    (h : (heapTupleSatisfiesVacuum o oldest t).result = .dead) : Doomed o.members life t oldest := by
  have hanswer := vacuum_answer (o := o) ht
  -- with the inserter committed, only the deleter makes a tuple dead
  have hxmax : (life t.xmin).isCommitted = true →
      (heapTupleSatisfiesVacuumHorizon o t).answer = (vacuumXmax o t).answer →
      Doomed o.members life t oldest := by
    intro hcommitted heq
    have hresult : (heapTupleSatisfiesVacuumHorizon o t).result = (vacuumXmax o t).result := congrArg Prod.fst heq
    have hafter : (heapTupleSatisfiesVacuumHorizon o t).deadAfter = (vacuumXmax o t).deadAfter :=
      congrArg Prod.snd heq
    rw [heapTupleSatisfiesVacuum] at h
    split at h
    case isTrue hrecent =>
      rw [hresult, hafter] at hrecent
      obtain ⟨hlock, hxid, hupdated⟩ := vacuumXmax_recentlyDead hl htrue hrecent.1
      exact .inr ⟨hcommitted, hlock, hupdated, hxid ▸ hrecent.2⟩
    case isFalse =>
      rw [hresult] at h
      exact absurd h vacuumXmax_not_dead
  -- any other verdict is not for the horizon to change
  have hother : ∀ r, r ≠ .dead → r ≠ .recentlyDead → (heapTupleSatisfiesVacuumHorizon o t).result ≠ r := by
    intro r hdead hrecent heq
    rw [heapTupleSatisfiesVacuum, if_neg (fun hr => hrecent (heq.symm.trans hr.1)), heq] at h
    exact hdead h
  split_ifs at hanswer with hc hi hcur hprog hdid
  · left
    apply htrue.xminInvalid
    rw [HeapTupleHeader.xminInvalid_eq, hc, hi]
    rfl
  · have hresult : (heapTupleSatisfiesVacuumHorizon o t).result = (vacuumOwn o t).result :=
      congrArg Prod.fst hanswer
    rcases vacuumOwn_result (o := o) (t := t) with hown | hown
    all_goals exact absurd (hresult.trans hown) (hother _ nofun nofun)
  · exact absurd (congrArg Prod.fst hanswer) (hother _ nofun nofun)
  · exact hxmax (hl.didCommit 1 _ hdid) hanswer
  · left
    rw [hl.aborted (eq_false_iff.mpr hprog) hdid]
    rfl
  · rw [not_eq_true', not_eq_false] at hc
    exact hxmax (htrue.xminCommitted hc) hanswer

/-- A deleter that has committed for the snapshot hides the tuple. -/
theorem mvccXmax_of_committed (hk : Knows o life) (htrue : HintsTrue o.members life t)
    (hlock : t.lockedOnly = false) (h : (life (updater o.members t)).isCommitted = true)
    (hsnap : xidInMVCCSnapshot o.topmost snapshot (updater o.members t) = false) :
    (mvccXmax o snapshot t).1 = false := by
  have hcur := hk.not_current (Life.isCommitted_ne_running h)
  have hdid := hk.committed _ h 2
  have hinvalid := htrue.xmaxInvalid
  grind [mvccXmax, updater, Life.not_isAborted]

/-- What is doomed no such snapshot sees. -/
theorem mvcc_of_doomed (hk : Knows o life) (htrue : HintsTrue o.members life t) (ht : Unmoved t)
    (hdoomed : Doomed o.members life t oldest)
    (hsnap : transactionIdPrecedes (updater o.members t) oldest = true →
      xidInMVCCSnapshot o.topmost snapshot (updater o.members t) = false) :
    (heapTupleSatisfiesMVCC o snapshot t).1 = false := by
  rw [mvcc_answer ht]
  have hcommitted := htrue.xminCommitted
  cases hdoomed with
  | inl haborted =>
    have hcur := hk.not_current (Life.isAborted_ne_running haborted)
    have hdid := hk.notCommitted _ haborted 0
    grind [HeapTupleHeader.xminCommitted_eq, Life.not_isAborted]
  | inr hdeleted =>
    obtain ⟨hxmin, hlock, hupdated, hprec⟩ := hdeleted
    have hcur := hk.not_current (Life.isCommitted_ne_running hxmin)
    have hgone := mvccXmax_of_committed hk htrue hlock hupdated (hsnap hprec)
    grind

end Heap
