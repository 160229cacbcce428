import Pgrust.ClogAtomic

/-!
What readers of pg_xact see while trees are committed and aborted: a subtransaction counts as
committed only once its top level has committed status, and from then on always.
-/
namespace Clog

open XidOrder List

variable {ι κ τ : Type} {F : Forest τ}

/-- The place of a transaction in its tree: the top level, then the subtransactions in order. -/
def Rank (F : Forest τ) (t : τ) (x : TransactionId) (k : Nat) : Prop :=
  (x = (F.tree t).top ∧ k = 0) ∨ ∃ n, (F.tree t).subxids[n]? = some x ∧ k = n + 1

/-- What a reader's place and cache say. -/
structure ReaderInv (F : Forest τ) (pages : Pages) (r : Reader τ) : Prop where
  cache : ∀ t, r.cachedFetchXid ∈ (F.tree t).xids →
    r.cachedFetchXidStatus ≠ .inProgress ∧ r.cachedFetchXidStatus ≠ .subCommitted ∧
      transactionIdGetStatus pages r.cachedFetchXid = r.cachedFetchXidStatus
  reading : ∀ q x, r.pc = .reading q x → (∃ k, Rank F q.tree x k ∧ q.fetches + k ≤ (F.tree q.tree).subxids.length) ∧
    (∀ y ∈ (F.tree q.tree).xids, transactionIdPrecedes y q.xmin = false) ∧
    (q.late = true → transactionIdGetStatus pages (F.tree q.tree).top = .committed)
  answered : ∀ q answer, r.pc = .answered q answer →
    (answer = true → transactionIdGetStatus pages (F.tree q.tree).top = .committed) ∧
    (q.late = true → answer = true)

variable {t : τ} {x : TransactionId} {pages : Pages}

theorem Rank.mem (h : Rank F t x k) : x ∈ (F.tree t).xids := by
  cases h with
  | inl htop => exact mem_cons.mpr (.inl htop.1)
  | inr hsub =>
    obtain ⟨n, hn, _⟩ := hsub
    exact mem_cons_of_mem _ (mem_of_getElem? hn)

theorem Rank.of_mem (h : x ∈ (F.tree t).xids) : ∃ k, Rank F t x k ∧ k ≤ (F.tree t).subxids.length := by
  cases mem_cons.mp h with
  | inl htop => exact ⟨0, .inl ⟨htop, rfl⟩, Nat.zero_le _⟩
  | inr hsub =>
    obtain ⟨n, hn⟩ := mem_iff_getElem?.mp hsub
    have hlt := (List.getElem?_eq_some_iff.mp hn).1
    exact ⟨n + 1, .inr ⟨n, hn, rfl⟩, hlt⟩

/-- The parent stands before the subtransaction. -/
theorem Rank.parent (h : Rank F t x k) (hne : x ≠ (F.tree t).top) :
    ∃ k', Rank F t (F.parent x) k' ∧ k' + 1 ≤ k := by
  cases h with
  | inl htop => exact absurd htop.1 hne
  | inr hsub =>
    obtain ⟨n, hn, rfl⟩ := hsub
    cases mem_cons.mp (F.recorded t n x hn) with
    | inl htop => exact ⟨0, .inl ⟨htop, rfl⟩, by omega⟩
    | inr hbefore =>
      obtain ⟨n', hn'⟩ := mem_iff_getElem?.mp hbefore
      rw [getElem?_take] at hn'
      split at hn'
      · exact ⟨n' + 1, .inr ⟨n', hn', rfl⟩, by omega⟩
      · cases hn'

variable {r : Reader τ}

theorem ReaderInv.stable (h : ReaderInv F pages r) (hstable : Stable F pages pages') : ReaderInv F pages' r := by
  have hcommitted : ∀ t, transactionIdGetStatus pages (F.tree t).top = .committed →
      transactionIdGetStatus pages' (F.tree t).top = .committed := by
    intro t hc
    rw [hstable t _ mem_cons_self (by rw [hc]; nofun) (by rw [hc]; nofun), hc]
  constructor
  case cache =>
    intro t hmem
    obtain ⟨hprog, hsub, hget⟩ := h.cache t hmem
    refine ⟨hprog, hsub, ?_⟩
    rw [hstable t _ hmem (by rw [hget]; exact hprog) (by rw [hget]; exact hsub), hget]
  case reading =>
    intro q x hpc
    obtain ⟨hrank, hxmin, hlate⟩ := h.reading q x hpc
    exact ⟨hrank, hxmin, fun hl => hcommitted _ (hlate hl)⟩
  case answered =>
    intro q answer hpc
    obtain ⟨htrue, hlate⟩ := h.answered q answer hpc
    exact ⟨fun ha => hcommitted _ (htrue ha), hlate⟩

/-- A fetch gives the status in pg_xact, from the cache too. -/
theorem ReaderInv.fetch_eq (h : ReaderInv F pages r) (hx : x ∈ (F.tree t).xids) :
    (transactionLogFetch pages r x).1 = transactionIdGetStatus pages x := by
  rw [transactionLogFetch]
  split
  case isTrue hcached =>
    subst hcached
    exact (h.cache t hx).2.2.symm
  case isFalse =>
    rw [if_neg (by rw [F.normal t x hx]; nofun)]
    dsimp only
    split <;> rfl

theorem ReaderInv.fetch_cache (h : ReaderInv F pages r) (x) (t : τ)
    (hx : (transactionLogFetch pages r x).2.cachedFetchXid ∈ (F.tree t).xids) :
    (transactionLogFetch pages r x).2.cachedFetchXidStatus ≠ .inProgress ∧
      (transactionLogFetch pages r x).2.cachedFetchXidStatus ≠ .subCommitted ∧
      transactionIdGetStatus pages (transactionLogFetch pages r x).2.cachedFetchXid =
        (transactionLogFetch pages r x).2.cachedFetchXidStatus := by
  rw [transactionLogFetch] at hx ⊢
  split at hx
  case isTrue hcached =>
    rw [if_pos hcached]
    exact h.cache t hx
  case isFalse hcached =>
    rw [if_neg hcached]
    split at hx
    case isTrue hspecial =>
      rw [if_pos hspecial]
      exact h.cache t hx
    case isFalse hspecial =>
      rw [if_neg hspecial]
      dsimp only at hx ⊢
      split at hx
      case isTrue hfinal =>
        rw [if_pos hfinal]
        exact ⟨hfinal.1, hfinal.2, rfl⟩
      case isFalse hfinal =>
        rw [if_neg hfinal]
        exact h.cache t hx

variable {served : ι → Bool} {L : GroupList.Lists ι} {log : τ → List Section} {s : State ι κ τ}

theorem Inv.top_not_subCommitted (h : Inv F served L log s) (t : τ) :
    transactionIdGetStatus s.pages (F.tree t).top ≠ .subCommitted := by
  rw [h.pages t _ mem_cons_self]
  cases hfate : s.fate t with
  | none =>
    rw [h.uncalled t hfate]
    nofun
  | some status =>
    obtain ⟨hstatus, hlog⟩ := h.called t status hfate
    cases hstatus with
    | inl hcommit =>
      subst hcommit
      cases commit_shape (F.top_not_mem t) hlog with
      | inl hbefore => rw [hbefore.1]; nofun
      | inr hafter => rw [hafter.1]; nofun
    | inr habort =>
      subst habort
      cases abort_shape hlog (F.tree t).top with
      | inl hprog => rw [hprog]; nofun
      | inr hab => rw [hab]; nofun

theorem isValid_of_isNormal (h : transactionIdIsNormal x = true) : transactionIdIsValid x = true := by
  rw [transactionIdIsValid, bne_iff_ne]
  rintro rfl
  exact absurd h (by decide)

/-- What a reader does with a status it has fetched, and why it is right. -/
theorem didCommitNext_spec (hinv : Inv F served L log s)
    (hrank : ∃ k, Rank F q.tree x k ∧ q.fetches + k ≤ (F.tree q.tree).subxids.length)
    (hxmin : ∀ y ∈ (F.tree q.tree).xids, transactionIdPrecedes y q.xmin = false)
    (hlate : q.late = true → transactionIdGetStatus s.pages (F.tree q.tree).top = .committed) :
    (∃ answer, didCommitNext F q x (transactionIdGetStatus s.pages x) = .answered q answer ∧
      (answer = true → transactionIdGetStatus s.pages (F.tree q.tree).top = .committed) ∧
      (q.late = true → answer = true)) ∨
    (∃ k, didCommitNext F q x (transactionIdGetStatus s.pages x) =
        .reading { q with fetches := q.fetches + 1 } (F.parent x) ∧
      Rank F q.tree (F.parent x) k ∧ q.fetches + 1 + k ≤ (F.tree q.tree).subxids.length) := by
  obtain ⟨k, hrank, hbound⟩ := hrank
  have hmem := hrank.mem
  -- once the top level is committed no transaction of the tree is in progress or aborted
  have hnotLate : transactionIdGetStatus s.pages x ≠ .committed →
      transactionIdGetStatus s.pages x ≠ .subCommitted → ¬q.late = true := by
    intro hcommitted hsubc hl
    cases hinv.shape q.tree with
    | inl hbefore => exact hbefore.1 (hlate hl)
    | inr hafter =>
      cases mem_cons.mp hmem with
      | inl htop => exact hcommitted (htop ▸ hafter.1)
      | inr hsub => exact (hafter.2.2 x hsub).elim hsubc hcommitted
  cases hstatus : transactionIdGetStatus s.pages x with
  | committed =>
    left
    refine ⟨true, rfl, fun _ => ?_, fun _ => rfl⟩
    exact ((hinv.shape q.tree).resolve_left fun hbefore => hbefore.2 x hmem hstatus).1
  | subCommitted =>
    right
    have hne : x ≠ (F.tree q.tree).top := by
      rintro rfl
      exact hinv.top_not_subCommitted q.tree hstatus
    obtain ⟨k', hrank', hk'⟩ := hrank.parent hne
    have hvalid : transactionIdIsValid (F.parent x) = true := isValid_of_isNormal (F.normal q.tree _ hrank'.mem)
    refine ⟨k', ?_, hrank', by omega⟩
    rw [didCommitNext, hxmin x hmem, hvalid]
    rfl
  | inProgress | aborted =>
    left
    exact ⟨false, rfl, nofun, fun hl => absurd hl (hnotLate (by rw [hstatus]; nofun) (by rw [hstatus]; nofun))⟩

theorem ReaderInv.read {r r' : Reader τ} (hinv : Inv F served L log s) (h : ReaderInv F s.pages r)
    (hread : Read F s r r') : ReaderInv F s.pages r' := by
  cases hread with
  | ask t x xmin hidle hx hxmin =>
    obtain ⟨k, hrank, hbound⟩ := Rank.of_mem hx
    constructor
    case cache => exact h.cache
    case reading =>
      rintro q y ⟨⟩
      exact ⟨⟨k, hrank, (Nat.zero_add k).trans_le hbound⟩, hxmin, of_decide_eq_true⟩
    case answered => nofun
  | fetch q x hpc =>
    obtain ⟨hrank, hxmin, hlate⟩ := h.reading q x hpc
    have hmem : x ∈ (F.tree q.tree).xids := hrank.elim fun k hk => hk.1.mem
    rw [h.fetch_eq hmem]
    cases didCommitNext_spec hinv hrank hxmin hlate with
    | inl hanswer =>
      obtain ⟨answer, heq, htrue, htold⟩ := hanswer
      rw [heq]
      constructor
      case cache => exact h.fetch_cache x
      case reading => nofun
      case answered =>
        intro q' answer' hpc'
        cases hpc'
        exact ⟨htrue, htold⟩
    | inr hparent =>
      obtain ⟨k, heq, hk, hbound⟩ := hparent
      rw [heq]
      constructor
      case cache => exact h.fetch_cache x
      case reading =>
        intro q' y hpc'
        cases hpc'
        exact ⟨⟨k, hk, hbound⟩, hxmin, hlate⟩
      case answered => nofun
  | leave =>
    constructor
    case cache => exact h.cache
    case reading => nofun
    case answered => nofun

section Runs

variable [DecidableEq ι] [DecidableEq κ] [DecidableEq τ]

omit [DecidableEq ι] [DecidableEq κ] [DecidableEq τ] in
theorem Inv.withReader (h : Inv F served L log s) (reader : κ → Reader τ) :
    Inv F served L log { s with reader := reader } :=
  ⟨h.group, h.uncalled, h.called, h.pages, h.fate, h.owner, h.placed⟩

omit [DecidableEq ι] [DecidableEq κ] [DecidableEq τ] in
theorem Inv.init (h : Initial F s) : Inv F (fun _ => false) ⟨[], fun _ => [], fun _ => []⟩ (fun _ => []) s := by
  have hcall : ∀ i c, (s.pc i).call ≠ some c := by
    intro i c
    rw [h.pc i]
    nofun
  constructor
  case group =>
    apply GroupList.Inv.init h.first
    intro i
    show (s.pc i).phase = .out
    rw [h.pc i]
    rfl
  case uncalled => exact fun _ _ => rfl
  case called =>
    intro t status hfate
    rw [h.fate t] at hfate
    cases hfate
  case pages => exact h.pages
  case fate => exact fun i c hc => absurd hc (hcall i c)
  case owner => exact fun i _ c _ hc => absurd hc (hcall i c)
  case placed =>
    intro i
    rw [h.pc i]
    trivial

/-- Along every run the backends keep their invariant and so does every reader. -/
theorem reachable_inv (h : Reachable F s) :
    (∃ served L log, Inv F served L log s) ∧ ∀ k, ReaderInv F s.pages (s.reader k) := by
  induction h with
  | init h =>
    refine ⟨⟨_, _, _, Inv.init h⟩, fun k => ?_⟩
    rw [h.reader k]
    constructor
    case cache =>
      intro t hmem
      have hnormal : transactionIdIsNormal invalidTransactionId = true := F.normal t _ hmem
      exact absurd hnormal (by decide)
    case reading => nofun
    case answered => nofun
  | @write s i e p _ hmove ih =>
    obtain ⟨⟨served, L, log, hinv⟩, hreaders⟩ := ih
    obtain ⟨served', L', log', hinv', hstable⟩ := hinv.step hmove
    exact ⟨⟨served', L', log', hinv'⟩, fun k => (hreaders k).stable hstable⟩
  | @read s k r _ hread ih =>
    obtain ⟨⟨served, L, log, hinv⟩, hreaders⟩ := ih
    refine ⟨⟨served, L, log, hinv.withReader _⟩, ?_⟩
    apply (Function.forall_update_iff s.reader fun _ => ReaderInv F s.pages).mpr
    exact ⟨(hreaders k).read hinv hread, fun k' _ => hreaders k'⟩

/-- Committing a tree is atomic for readers. Who is told that a transaction of a tree has committed
is told so after the top level has committed status, and not of an aborted tree; who asks after that
is told so, after at most one fetch for each transaction of the tree; the committed status of a top
level stays; and a call returns with its statuses stored. -/
theorem commit_tree_atomic (h : Reachable F s) : (∀ k q, (s.reader k).pc = .answered q true →
      transactionIdGetStatus s.pages (F.tree q.tree).top = .committed ∧ s.fate q.tree = some .committed) ∧
    (∀ k q answer, (s.reader k).pc = .answered q answer → q.late = true → answer = true) ∧
    (∀ k q x, (s.reader k).pc = .reading q x → q.fetches ≤ (F.tree q.tree).subxids.length) ∧
    (∀ i e p, Move F s i (s.pc i) e p → ∀ t, transactionIdGetStatus s.pages (F.tree t).top = .committed →
      transactionIdGetStatus (s.move i e p).pages (F.tree t).top = .committed) ∧
    (∀ i c, s.pc i = .returned c → ∀ x ∈ (F.tree c.tree).xids, transactionIdGetStatus s.pages x = c.status) := by
  obtain ⟨⟨served, L, log, hinv⟩, hreaders⟩ := reachable_inv h
  refine ⟨?_, ?_, ?_, ?_, ?_⟩
  · intro k q hpc
    have htop := ((hreaders k).answered q true hpc).1 rfl
    exact ⟨htop, ((hinv.shape q.tree).resolve_left fun hbefore => hbefore.1 htop).2.1⟩
  · exact fun k q answer hpc => ((hreaders k).answered q answer hpc).2
  · intro k q x hpc
    obtain ⟨rank, _, hbound⟩ := ((hreaders k).reading q x hpc).1
    omega
  · intro i e p hmove t htop
    obtain ⟨_, _, _, _, hstable⟩ := hinv.step hmove
    rw [hstable t _ mem_cons_self (by rw [htop]; nofun) (by rw [htop]; nofun), htop]
  · intro i c hpc x hx
    have hplaced := hinv.placed i
    rw [hpc] at hplaced
    rw [hinv.pages c.tree x hx, hplaced]
    exact statusAfter_plan (F.tree c.tree) c.status hx

end Runs

namespace Run

theorem mem_pair (hx : x ∈ Tree.xids ⟨3, [4]⟩) : x = 3 ∨ x = 4 := by
  exact (mem_cons.mp hx).imp_right mem_singleton.mp

/-- One transaction with one subtransaction. -/
def pair : Forest Unit where
  tree := fun _ => ⟨3, [4]⟩
  parent := fun _ => 3
  normal := by
    intro _ x hx
    cases mem_pair hx with
    | inl htop => rw [htop]; rfl
    | inr hsub => rw [hsub]; rfl
  top_not_mem := fun _ => by simp
  disjoint := fun _ _ _ _ _ => rfl
  recorded := fun _ _ _ _ => mem_cons_self

def start : State Unit Unit Unit where
  pages := fun _ _ => 0
  fate := fun _ => none
  clogGroupFirst := none
  proc := fun _ => ⟨3, [4], false, 0, .inProgress, 0, none⟩
  pc := fun _ => .idle
  reader := fun _ => ⟨invalidTransactionId, .inProgress, .idle⟩

theorem start_initial : Initial pair start where
  pages := by
    intro _ x hx
    cases mem_pair hx with
    | inl htop => rw [htop]; decide
    | inr hsub => rw [hsub]; decide
  fate := fun _ => rfl
  first := rfl
  pc := fun _ => rfl
  reader := fun _ => rfl

theorem pair_recent (y : TransactionId) (hy : y ∈ (pair.tree ()).xids) : transactionIdPrecedes y 3 = false := by
  cases mem_pair hy with
  | inl htop => rw [htop]; decide
  | inr hsub => rw [hsub]; decide

/-- The tree is committed, then a reader asks about the subtransaction. -/
theorem commit_tree_atomic_pair : ∃ s : State Unit Unit Unit, Reachable pair s ∧
      (∃ q, q.late = true ∧ (s.reader ()).pc = .answered q true ∧ s.fate q.tree = some .committed) ∧
      transactionIdGetStatus s.pages 4 = .committed := by
  have h₀ : Reachable pair start := .init start_initial
  have h₁ := h₀.write (i := ()) (.callGroup ⟨(), .committed⟩ (.inl rfl) rfl rfl)
  have h₂ := h₁.write (i := ()) (.bankFree ⟨(), .committed⟩)
  have h₃ := h₂.read (k := ()) (.ask _ () 4 3 rfl (mem_cons_of_mem _ mem_cons_self) pair_recent)
  have h₄ := h₃.read (k := ()) (.fetch _ _ _ rfl)
  have h := commit_tree_atomic h₄
  exact ⟨_, h₄, ⟨_, by decide, rfl, (h.1 () _ rfl).2⟩, h.2.2.2.2 () ⟨(), .committed⟩ rfl 4
    (mem_cons_of_mem _ mem_cons_self)⟩

end Run

end Clog
