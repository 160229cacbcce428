import Pgrust.HeapVisibilityCalls

/-!
Backends look at one tuple while transactions go on: what vacuum has once called dead no snapshot
sees any more, and the hint bits stay true and change no answer.
-/
namespace Heap

open XidOrder
open Function (update update_apply)

variable {snapshot : Snapshot} {oldest x : TransactionId}

/-- The transactions, those that are a backend's own, and the snapshots it holds. A transaction that
has not begun counts as running. -/
structure World (β : Type) where
  life : TransactionId → Life
  mine : β → TransactionId → Bool
  held : β → List Snapshot

variable {β : Type} [DecidableEq β] (members : TransactionId → List MultiXactMember)
  (topmost : TransactionId → TransactionId)

/-- Who is not in the snapshot is the backend's own, or has ended. -/
def Genuine (w : World β) (b : β) (snapshot : Snapshot) : Prop :=
  ∀ x, xidInMVCCSnapshot topmost snapshot x = false → w.mine b x = true ∨ (w.life x).ended = true

/-- What transactions and their backends do. -/
inductive World.Step (w : World β) : World β → Prop
  | assign (b : β) (x : TransactionId) (hfree : ∀ b', w.mine b' x = false) (hrun : w.life x = .running) :
      Step w { w with mine := update w.mine b (update (w.mine b) x true) }
  | advance (x : TransactionId) (l : Life) (h : (w.life x).Step l) : Step w { w with life := update w.life x l }
  | take (b : β) (snapshot : Snapshot) (h : Genuine topmost w b snapshot) :
      Step w { w with held := update w.held b (snapshot :: w.held b) }
  | release (b : β) (rest : List Snapshot) (h : ∀ snapshot ∈ rest, snapshot ∈ w.held b) :
      Step w { w with held := update w.held b rest }
  -- the end of a transaction with its subtransactions
  | finish (b : β) (h : ∀ x, w.mine b x = true → w.life x ≠ .running) : Step w { w with
        mine := update w.mine b fun _ => false
        held := update w.held b [] }

abbrev World.Steps : World β → World β → Prop := Relation.ReflTransGen (World.Step topmost)

/-- The moments of a call of backend `b`, from `w` to `w'`. It is not about to end a transaction. -/
structure During (b : β) (w : World β) (moment : Nat → World β) (w' : World β) : Prop where
  start : moment 0 = w
  next : ∀ k, World.Steps topmost (moment k) (moment (k + 1))
  finish : ∀ k, World.Steps topmost (moment k) w'
  quiet : ∀ x, w.mine b x = true → w.life x = .running ∨ w.life x = .aborted

/-- What a backend is told. -/
def told (b : β) (moment : Nat → World β) (cmin cmax : Nat) (hintOk : TransactionId → Bool) : Oracles where
  isCurrent := fun x => (moment 0).mine b x && decide ((moment 0).life x = .running)
  isInProgress := fun k x => !((moment k).life x).ended
  didCommit := fun k x => ((moment k).life x).isCommitted
  members := members
  topmost := topmost
  cmin := cmin
  cmax := cmax
  hintOk := hintOk

/-- The tuple among the transactions. `dead` has the horizons that vacuum has called it dead for. -/
structure Scene (β : Type) where
  world : World β
  tuple : HeapTupleHeader
  dead : List TransactionId

/-- The runs from a tuple with true hints. -/
inductive Reachable (w₀ : World β) (t₀ : HeapTupleHeader) : Scene β → Prop
  | init (htrue : HintsTrue members w₀.life t₀) (ht : Unmoved t₀)
      (hheld : ∀ b, ∀ snapshot ∈ w₀.held b, Genuine topmost w₀ b snapshot) : Reachable w₀ t₀ ⟨w₀, t₀, []⟩
  | step {s : Scene β} {w : World β} (h : Reachable w₀ t₀ s) (hstep : s.world.Step topmost w) :
      Reachable w₀ t₀ { s with world := w }
  | mvcc {s : Scene β} {b : β} {snapshot : Snapshot} {moment : Nat → World β} {w : World β}
      (h : Reachable w₀ t₀ s) (cmin cmax : Nat) (hintOk : TransactionId → Bool)
      (hheld : snapshot ∈ s.world.held b) (hcall : During topmost b s.world moment w) :
      Reachable w₀ t₀ ⟨w,
        (heapTupleSatisfiesMVCC (told members topmost b moment cmin cmax hintOk) snapshot s.tuple).2, s.dead⟩
  | vacuum {s : Scene β} {b : β} {moment : Nat → World β} {w : World β} (h : Reachable w₀ t₀ s)
      (oldest : TransactionId) (cmin cmax : Nat) (hintOk : TransactionId → Bool)
      (hcall : During topmost b s.world moment w) :
      Reachable w₀ t₀ ⟨w,
        (heapTupleSatisfiesVacuum (told members topmost b moment cmin cmax hintOk) oldest s.tuple).header,
        if (heapTupleSatisfiesVacuum (told members topmost b moment cmin cmax hintOk) oldest
          s.tuple).result = .dead then oldest :: s.dead else s.dead⟩

/-- While the inserter runs, a deleter is of the same transaction: nobody else sees the tuple. -/
structure Owned (w : World β) (t : HeapTupleHeader) : Prop where
  begun : w.life t.xmin = .running → ∃ b, w.mine b t.xmin = true
  deleter : ∀ b, w.mine b t.xmin = true → w.life t.xmin = .running → t.has heapXmaxInvalid = false →
    t.lockedOnly = false → t.isMulti = false → w.mine b t.xmax = true

variable {members topmost} {w w' : World β} {t : HeapTupleHeader} {b : β}

theorem World.Step.later (h : w.Step topmost w') (x) : (w.life x).Later (w'.life x) := by
  cases h with
  | advance y l h =>
    have hlater := h.later
    grind [update_apply, Life.Later]
  | _ => exact .inl rfl

theorem World.Steps.later (h : World.Steps topmost w w') (x) : (w.life x).Later (w'.life x) := by
  induction h with
  | refl => exact .inl rfl
  | tail _ hstep ih => exact ih.trans (hstep.later x)

/-- A backend keeps what is its own, or ends its transaction. -/
theorem World.Step.own (h : w.Step topmost w') (b : β) : (∀ x, w.mine b x = true → w'.mine b x = true) ∨
    (∀ x, w'.mine b x = false) ∧ w'.held b = [] ∧ ∀ x, w.mine b x = true → w.life x ≠ .running := by
  cases h <;> simp only [update_apply, ite_apply] at * <;> grind

/-- A transaction that becomes a backend's own was nobody's. -/
theorem World.Step.fresh (h : w.Step topmost w') (hx : w'.mine b x = true) :
    w.mine b x = true ∨ (∀ b', w.mine b' x = false) ∧ w.life x = .running := by
  cases h <;> simp only [update_apply, ite_apply] at * <;> grind

/-- A snapshot that is held was held, or is genuine. -/
theorem World.Step.held (h : w.Step topmost w') (hheld : snapshot ∈ w'.held b) :
    snapshot ∈ w.held b ∨ Genuine topmost w b snapshot := by
  cases h <;> simp only [update_apply] at * <;> grind

/-- All snapshots that are held are genuine. -/
def Holding (topmost : TransactionId → TransactionId) (w : World β) : Prop :=
  ∀ b, ∀ snapshot ∈ w.held b, Genuine topmost w b snapshot

theorem Holding.step (h : Holding topmost w) (hstep : w.Step topmost w') : Holding topmost w' := by
  intro b snapshot hmem x hx
  have hgenuine : Genuine topmost w b snapshot := (hstep.held hmem).elim (h b snapshot) id
  cases hstep.own b with
  | inl hkept =>
    cases hgenuine x hx with
    | inl hown => exact .inl (hkept x hown)
    | inr hended =>
      right
      rw [(hstep.later x).ended hended]
      exact hended
  | inr hdone =>
    rw [hdone.2.1] at hmem
    cases hmem

theorem running_of_later {l l' : Life} (h : l.Later l') (hrun : l' = .running) : l = .running :=
  Decidable.byContradiction fun hne => h.not_running hne hrun

theorem Owned.step (h : Owned w t) (hstep : w.Step topmost w') : Owned w' t := by
  have hran := running_of_later (hstep.later t.xmin)
  have hown := hstep.own
  constructor
  case begun =>
    have hbegun := h.begun
    grind
  case deleter =>
    intro b hb hrun hi hlock hmulti
    have hfresh := hstep.fresh hb
    have hbegun := h.begun (hran hrun)
    have hdeleter := h.deleter b
    grind

theorem Holding.steps (h : Holding topmost w) (hsteps : World.Steps topmost w w') : Holding topmost w' := by
  induction hsteps with
  | refl => exact h
  | tail _ hstep ih => exact ih.step hstep

theorem Owned.steps (h : Owned w t) (hsteps : World.Steps topmost w w') : Owned w' t := by
  induction hsteps with
  | refl => exact h
  | tail _ hstep ih => exact ih.step hstep

namespace During

variable {moment : Nat → World β} {cmin cmax : Nat} {hintOk : TransactionId → Bool}
  (h : During topmost b w moment w')

include h

theorem since (k : Nat) : World.Steps topmost w (moment k) := by
  induction k with
  | zero => rw [h.start]
  | succ k ih => exact ih.trans (h.next k)

theorem whole : World.Steps topmost w w' := (h.since 0).trans (h.finish 0)

theorem isCurrent_eq (x) : (told members topmost b moment cmin cmax hintOk).isCurrent x =
      (w.mine b x && decide (w.life x = .running)) := by
  rw [← h.start]
  rfl

/-- What had ended when the call began, it is told. -/
theorem knows : Knows (told members topmost b moment cmin cmax hintOk) w.life := by
  constructor
  case current =>
    intro x hx
    rw [h.isCurrent_eq, Bool.and_eq_true] at hx
    exact of_decide_eq_true hx.2
  case committed => exact fun x hx k => ((h.since k).later x).isCommitted hx
  case notCommitted =>
    intro x hx k
    have haborted := ((h.since k).later x).isAborted hx
    apply Bool.eq_false_iff.mpr
    intro hc
    rw [Life.not_isAborted hc] at haborted
    cases haborted
  case ended =>
    intro x hx k
    show (!((moment k).life x).ended) = false
    rw [((h.since k).later x).ended hx, hx]
    rfl

/-- What it is told holds when the call is over. -/
theorem learns : Learns (told members topmost b moment cmin cmax hintOk) w'.life := by
  have hended : ∀ k x, (told members topmost b moment cmin cmax hintOk).isInProgress k x = false →
      ((moment k).life x).ended = true := fun k x hx => Bool.not_eq_false' _ ▸ hx
  constructor
  case ended =>
    intro k x hx
    rw [((h.finish k).later x).ended (hended k x hx)]
    exact hended k x hx
  case didCommit => exact fun k x hx => ((h.finish k).later x).isCommitted hx
  case didNot =>
    intro k x hx hdid
    have hnext : (moment (k + 1)).life x = (moment k).life x := ((h.next k).later x).ended (hended k x hx)
    have hnot : ((moment (k + 1)).life x).isCommitted = false := hdid
    rw [((h.finish k).later x).ended (hended k x hx), ← hnext]
    exact hnot

theorem settles (hgenuine : Genuine topmost w b snapshot) :
    Settles (told members topmost b moment cmin cmax hintOk) snapshot w'.life := by
  intro x hx hcur k
  have hended : (w.life x).ended = true := by
    cases hgenuine x hx with
    | inr hended => exact hended
    | inl hown =>
      cases h.quiet x hown with
      | inr haborted => rw [haborted]; rfl
      | inl hrun =>
        rw [h.isCurrent_eq, hown, decide_eq_true hrun] at hcur
        cases hcur
  show w'.life x = if ((moment k).life x).isCommitted then .committed else .aborted
  rw [((h.since k).later x).ended hended, (h.whole.later x).ended hended]
  split_ifs with hc
  · rw [Life.committed_of_ended hended hc]
  · rw [Life.aborted_of_ended hended (Bool.eq_false_iff.mpr hc)]

theorem ownDeleter (hown : Owned w t) : OwnDeleter (told members topmost b moment cmin cmax hintOk) w'.life t := by
  intro hcur hi hlock hmulti hnot
  rw [h.isCurrent_eq, Bool.and_eq_true] at hcur
  have hmine := hown.deleter b hcur.1 (of_decide_eq_true hcur.2) hi hlock hmulti
  have haborted : w.life t.xmax = .aborted := by
    cases h.quiet _ hmine with
    | inr haborted => exact haborted
    | inl hrun =>
      rw [h.isCurrent_eq, hmine, decide_eq_true hrun] at hnot
      cases hnot
  rw [(h.whole.later t.xmax).ended (by rw [haborted]; rfl), haborted]

end During

variable {life : TransactionId → Life}

theorem Hinted.xmaxInvalid (h : Hinted members life t t') (hi : t.has heapXmaxInvalid = true) : t'.has heapXmaxInvalid = true := by
  induction h with
  | refl => exact hi
  | @set t' flag _ hint ih =>
    cases hint with
    | xmaxInvalid | lockersGone => exact HeapTupleHeader.has_set_self (k := 11) rfl
    | _ => exact (HeapTupleHeader.has_set_of_disjoint (by decide)).trans ih

omit [DecidableEq β] in
theorem Owned.hinted (h : Owned w t) (hh : Hinted members life t t') : Owned w t' := by
  obtain ⟨hxmin, hxmax, hmulti, hlock⟩ := hh.same
  constructor
  case begun =>
    rw [hxmin]
    exact h.begun
  case deleter =>
    intro b
    rw [hxmin, hxmax, hmulti, hlock]
    intro hb hrun hi
    apply h.deleter b hb hrun
    apply Bool.eq_false_iff.mpr
    intro hset
    rw [hh.xmaxInvalid hset] at hi
    cases hi

theorem Doomed.later (h : Doomed members life t oldest) (hl : ∀ x, (life x).Later (life' x)) :
    Doomed members life' t oldest := by
  cases h with
  | inl haborted => exact .inl ((hl _).isAborted haborted)
  | inr hdeleted =>
    obtain ⟨hcommitted, hlock, hupdated, hprec⟩ := hdeleted
    exact .inr ⟨(hl _).isCommitted hcommitted, hlock, (hl _).isCommitted hupdated, hprec⟩

theorem Hinted.updater_eq (h : Hinted members life t t') : updater members t' = updater members t := by
  obtain ⟨_, hxmax, hmulti, _⟩ := h.same
  rw [updater, updater, hxmax, hmulti]

theorem Doomed.hinted (h : Doomed members life t oldest) (hh : Hinted members life' t t') :
    Doomed members life t' oldest := by
  obtain ⟨hxmin, _, _, hlock⟩ := hh.same
  rw [Doomed, hxmin, hlock, hh.updater_eq]
  exact h

/-- What holds along a run. -/
structure Inv (members : TransactionId → List MultiXactMember) (topmost : TransactionId → TransactionId)
    (t₀ : HeapTupleHeader) (s : Scene β) : Prop where
  holding : Holding topmost s.world
  owned : Owned s.world s.tuple
  start : HintsTrue members s.world.life t₀
  unmoved : Unmoved t₀
  hinted : Hinted members s.world.life t₀ s.tuple
  dead : ∀ oldest ∈ s.dead, Doomed members s.world.life s.tuple oldest

namespace Inv

variable {t₀ : HeapTupleHeader} {s : Scene β}

omit [DecidableEq β] in
theorem hintsTrue (h : Inv members topmost t₀ s) : HintsTrue members s.world.life s.tuple :=
  h.hinted.hintsTrue h.start

omit [DecidableEq β] in
theorem unmoved_tuple (h : Inv members topmost t₀ s) : Unmoved s.tuple := h.hinted.unmoved h.unmoved

/-- The transactions go on. -/
theorem steps (h : Inv members topmost t₀ s) (hsteps : World.Steps topmost s.world w) :
    Inv members topmost t₀ { s with world := w } where
  holding := h.holding.steps hsteps
  owned := h.owned.steps hsteps
  start := h.start.later hsteps.later
  unmoved := h.unmoved
  hinted := h.hinted.later hsteps.later
  dead := fun oldest hmem => (h.dead oldest hmem).later hsteps.later

omit [DecidableEq β] in
/-- The tuple gets hints. -/
theorem withHints (h : Inv members topmost t₀ s) (hh : Hinted members s.world.life s.tuple t') :
    Inv members topmost t₀ { s with tuple := t' } :=
  { h with
    owned := h.owned.hinted hh
    hinted := h.hinted.trans hh
    dead := fun oldest hmem => (h.dead oldest hmem).hinted hh }

omit [DecidableEq β] in
/-- Vacuum calls the tuple dead. -/
theorem withDead (h : Inv members topmost t₀ s) (hd : Doomed members s.world.life s.tuple oldest) :
    Inv members topmost t₀ { s with dead := oldest :: s.dead } :=
  { h with
    dead := fun oldest' hmem => (List.mem_cons.mp hmem).elim (fun heq => heq ▸ hd) (h.dead oldest') }

end Inv

variable {w₀ : World β} {t₀ : HeapTupleHeader} {s : Scene β}

theorem reachable_inv (hown : Owned w₀ t₀) (h : Reachable members topmost w₀ t₀ s) : Inv members topmost t₀ s := by
  induction h with
  | init htrue ht hheld => exact ⟨hheld, hown, htrue, ht, .refl, nofun⟩
  | step h hstep ih => exact ih.steps (.single hstep)
  | mvcc h cmin cmax hintOk hheld hcall ih =>
    have hnext := ih.steps hcall.whole
    exact hnext.withHints
      (mvcc_hinted (hcall.settles (ih.holding _ _ hheld)) (hcall.ownDeleter ih.owned) ih.unmoved_tuple)
  | @vacuum s b moment w h oldest cmin cmax hintOk hcall ih =>
    have hnext := ih.steps hcall.whole
    have hlearns : Learns (told members topmost b moment cmin cmax hintOk) w.life := hcall.learns
    have hhinted := hnext.withHints (vacuum_hinted oldest hlearns ih.unmoved_tuple)
    split_ifs with hdead
    · apply hhinted.withDead
      exact (doomed_of_dead hlearns hnext.hintsTrue ih.unmoved_tuple hdead).hinted
        (vacuum_hinted oldest hlearns ih.unmoved_tuple)
    · exact hhinted

/-- Ids that precede the horizon precede the beginning of a snapshot that is not older. -/
theorem precedes_of_horizon (holdest : InWindow base oldest) (hxmin : InWindow base xmin)
    (hu : transactionIdIsNormal u = true → InWindow base u) (hprec : transactionIdPrecedes u oldest = true)
    (hle : transactionIdPrecedesOrEquals oldest xmin = true) : transactionIdPrecedes u xmin = true := by
  cases hn : transactionIdIsNormal u with
  | true =>
    rw [precedes_iff (hu hn) holdest] at hprec
    rw [precedesOrEquals_iff holdest hxmin] at hle
    rw [precedes_iff (hu hn) hxmin]
    omega
  | false =>
    have hsmall : u.toNat < 3 := by
      have hnot := of_decide_eq_false hn
      rw [UInt32.le_iff_toNat_le, toNat_three] at hnot
      omega
    rw [transactionIdPrecedes, hn]
    apply decide_eq_true
    rw [UInt32.lt_iff_toNat_lt]
    have := hxmin.normal
    omega

/-- Once vacuum has called the tuple dead for a horizon, no snapshot that does not begin before the
horizon sees it, at any later moment. All along the hints are true, and every answer is the one that
the header had given at the beginning, without the hints set since. -/
theorem dead_stays_hidden (hown : Owned w₀ t₀) (h : Reachable members topmost w₀ t₀ s) :
    (∀ oldest ∈ s.dead, ∀ (base : TransactionId) (b : β) (snapshot : Snapshot) (moment : Nat → World β)
      (w : World β) (cmin cmax : Nat) (hintOk : TransactionId → Bool),
      During topmost b s.world moment w → InWindow base oldest → InWindow base snapshot.xmin →
      (transactionIdIsNormal (updater members s.tuple) = true → InWindow base (updater members s.tuple)) →
      transactionIdPrecedesOrEquals oldest snapshot.xmin = true →
      (heapTupleSatisfiesMVCC (told members topmost b moment cmin cmax hintOk) snapshot s.tuple).1 = false) ∧
    HintsTrue members s.world.life s.tuple ∧
    (∀ (b : β) (moment : Nat → World β) (w : World β) (cmin cmax : Nat) (hintOk : TransactionId → Bool),
      During topmost b s.world moment w →
      (∀ snapshot, (heapTupleSatisfiesMVCC (told members topmost b moment cmin cmax hintOk) snapshot s.tuple).1 =
          (heapTupleSatisfiesMVCC (told members topmost b moment cmin cmax hintOk) snapshot t₀).1) ∧
      ∀ oldest, (heapTupleSatisfiesVacuum (told members topmost b moment cmin cmax hintOk) oldest s.tuple).answer =
          (heapTupleSatisfiesVacuum (told members topmost b moment cmin cmax hintOk) oldest t₀).answer) := by
  have hinv := reachable_inv hown h
  refine ⟨?_, hinv.hintsTrue, ?_⟩
  · intro oldest hmem base b snapshot moment w cmin cmax hintOk hcall holdest hxmin hu hle
    apply mvcc_of_doomed hcall.knows hinv.hintsTrue hinv.unmoved_tuple (hinv.dead oldest hmem)
    exact fun hprec => not_inSnapshot_of_precedes (precedes_of_horizon holdest hxmin hu hprec hle)
  · intro b moment w cmin cmax hintOk hcall
    have hknows : Knows (told members topmost b moment cmin cmax hintOk) s.world.life := hcall.knows
    have hsame := Hinted.answers_eq (o := told members topmost b moment cmin cmax hintOk) hinv.hinted
      hknows hinv.start hinv.unmoved
    exact ⟨hsame.1, fun oldest => vacuum_answer_congr hsame.2⟩

namespace Run

/-- Nothing happens to transactions during the call. -/
theorem during_still (hquiet : ∀ x, w.mine b x = true → w.life x = .running ∨ w.life x = .aborted) :
    During topmost b w (fun _ => w) w :=
  ⟨rfl, fun _ => .refl, fun _ => .refl, hquiet⟩

theorem followsOrEquals_eq (a b : TransactionId) :
    transactionIdFollowsOrEquals a b = !transactionIdPrecedes a b := by
  rw [transactionIdFollowsOrEquals, transactionIdPrecedes]
  split_ifs
  · rw [← decide_not]
    exact decide_eq_decide.mpr UInt32.not_lt.symm
  · rw [← decide_not]
    exact decide_eq_decide.mpr Int.not_lt.symm

/-- Everybody below 4 has ended when it is taken. -/
def below : Snapshot := ⟨4, 4, [], [], false, false, 1⟩

theorem precedes_of_below (h : xidInMVCCSnapshot id below x = false) : transactionIdPrecedes x 4 = true := by
  apply Decidable.byContradiction
  intro hnot
  have hfollows : transactionIdFollowsOrEquals x 4 = true := by
    rw [followsOrEquals_eq, Bool.eq_false_iff.mpr hnot]
    rfl
  rw [xidInMVCCSnapshot, below, if_neg hnot, if_pos hfollows] at h
  cases h

/-- Inserted by transaction 3, deleted by transaction 4. -/
def tuple : HeapTupleHeader := ⟨3, 4, 0, 0⟩

/-- Transaction 3 is the first backend's own and runs, 4 is the second one's. -/
def two : World Bool where
  life := fun x => if x ≠ 3 ∧ transactionIdPrecedes x 4 = true then .aborted else .running
  mine := fun b x => if b then x == 3 else x == 4
  held := fun b => if b then [below] else []

theorem two_genuine (b : Bool) (snapshot) (h : snapshot ∈ two.held b) : Genuine id two b snapshot := by
  intro x hx
  cases b with
  | false => cases h
  | true =>
    rw [List.mem_singleton.mp h] at hx
    by_cases hthree : x = 3
    · left
      exact beq_iff_eq.mpr hthree
    · right
      show Life.ended (if x ≠ 3 ∧ transactionIdPrecedes x 4 = true then .aborted else .running) = true
      rw [if_pos ⟨hthree, precedes_of_below hx⟩]
      rfl

theorem two_reachable : Reachable (fun _ => []) id two tuple ⟨two, tuple.set heapXmaxInvalid, []⟩ := by
  have h₀ : Reachable (fun _ => []) id two tuple ⟨two, tuple, []⟩ :=
    .init ⟨nofun, nofun, nofun, nofun, nofun⟩ ⟨rfl, rfl⟩ two_genuine
  have hquiet : ∀ x, two.mine true x = true → two.life x = .running ∨ two.life x = .aborted := by
    intro x _
    show (if x ≠ 3 ∧ transactionIdPrecedes x 4 = true then Life.aborted else .running) = .running ∨ _
    split_ifs with hx
    · right
      exact if_pos hx
    · exact .inl rfl
  exact h₀.mvcc 0 0 (fun _ => true) (List.mem_cons_self (a := below)) (during_still hquiet)

/-- The inserter takes a deleter of another transaction for a subtransaction that has aborted. -/
theorem foreign_deleter_hint_untrue :
    ∃ s : Scene Bool, Reachable (fun _ => []) id two tuple s ∧ ¬ HintsTrue (fun _ => []) s.world.life s.tuple := by
  refine ⟨_, two_reachable, fun htrue => ?_⟩
  have haborted := htrue.xmaxInvalid rfl rfl
  cases haborted

/-- Transactions 3 and 4 have committed. -/
def done : World Bool where
  life := fun x => if transactionIdPrecedes x 5 = true then .committed else .running
  mine := fun _ _ => false
  held := fun _ => []

theorem done_reachable : ∃ t, Reachable (fun _ => []) id done tuple ⟨done, t, [5]⟩ := by
  have h₀ : Reachable (fun _ => []) id done tuple ⟨done, tuple, []⟩ :=
    .init ⟨nofun, nofun, nofun, nofun, nofun⟩ ⟨rfl, rfl⟩ nofun
  exact ⟨_, h₀.vacuum (b := true) 5 0 0 (fun _ => false) (during_still nofun)⟩

/-- Vacuum calls the tuple dead with the horizon 5, and a snapshot that begins there does not see it. -/
theorem dead_stays_hidden_done : ∃ s : Scene Bool, Reachable (fun _ => []) id done tuple s ∧ 5 ∈ s.dead ∧
      (heapTupleSatisfiesMVCC (told (fun _ => []) id false (fun _ => done) 0 0 fun _ => true)
        ⟨5, 5, [], [], false, false, 0⟩ s.tuple).1 = false := by
  obtain ⟨t, h⟩ := done_reachable
  have hown : Owned done tuple := ⟨nofun, nofun⟩
  refine ⟨_, h, List.mem_cons_self, ?_⟩
  have hwindow : InWindow 3 5 := ⟨by decide, by decide⟩
  have hinv := reachable_inv hown h
  refine (dead_stays_hidden hown h).1 5 List.mem_cons_self 3 false _ _ done 0 0 _ (during_still nofun)
    hwindow hwindow ?_ rfl
  intro _
  rw [hinv.hinted.updater_eq]
  exact ⟨by decide, by decide⟩

end Run

end Heap
