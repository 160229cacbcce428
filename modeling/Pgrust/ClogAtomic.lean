import Pgrust.ClogGroup
import Pgrust.GroupList

/-!
Committing a tree is atomic for readers. What pg_xact says of the transactions of a tree is what the
sections done for the tree so far have made of it; a backend does the sections of its call in order,
or has the only one done by the leader of its group.
-/
namespace Clog

open XidOrder GroupList List
open Function (update update_self update_of_ne update_apply apply_update update_eq_self forall_update_iff)

variable {ι κ τ : Type}

/-- A backend as a member of the group list. -/
def Pc.phase : Pc ι τ → Phase ι
  | follow _ => .follow
  | lead _ => .lead
  | walk _ nextidx wakeidx => .walk nextidx wakeidx
  | wake _ wakeidx => .wake wakeidx
  | _ => .out

def State.group (s : State ι κ τ) (served : ι → Bool) : GroupList.Group ι where
  first := s.clogGroupFirst
  next := fun i => (s.proc i).clogGroupNext
  member := fun i => (s.proc i).clogGroupMember
  phase := fun i => (s.pc i).phase
  served := served

def Pc.call : Pc ι τ → Option (Call τ)
  | idle => none
  | direct c _ | tryBank c | publish c | loadFirst c | head c _ | cas c _ | follow c | lead c
  | walk c _ _ | wake c _ | returned c => some c

/-- The sections of a call. -/
def Call.plan (F : Forest τ) (c : Call τ) : List Section := transactionIdSetTreeStatus (F.tree c.tree) c.status

/-- The backend's `PGPROC` has the tree of its call, which is on one page. -/
structure Matches (F : Forest τ) (c : Call τ) (p : Proc ι) : Prop where
  onePage : (F.tree c.tree).otherPages = []
  subxids : p.subxids = (F.tree c.tree).subxids

/-- What a leader would do for the backend is what the call has to do. -/
structure Published (F : Forest τ) (c : Call τ) (p : Proc ι) : Prop extends Matches F c p where
  member : p.memberSection = (F.tree c.tree).mainSection c.status

variable {c : Call τ} {sec : Section}

theorem Matches.plan_eq (h : Matches F c p) : c.plan F = [(F.tree c.tree).mainSection c.status] := by
  rw [Call.plan, transactionIdSetTreeStatus, if_pos h.onePage]

theorem Matches.firstPage (h : Matches F c p) : (F.tree c.tree).firstPage = p.subxids := by
  have hsplit := firstPage_append_otherPages (F.tree c.tree)
  rw [h.onePage, append_nil] at hsplit
  rw [hsplit, h.subxids]

theorem Published.woken (h : Published F c p) :
    Published F c { p with clogGroupMember := false, clogGroupNext := (none : Option ι) } := by
  constructor
  · exact ⟨h.onePage, h.subxids⟩
  · exact h.member

/-- How far the call of a backend is, by its place. -/
def Placed (F : Forest τ) (p : Proc ι) (served : Bool) (log : τ → List Section) : Pc ι τ → Prop
  | .idle => True
  | .direct c todo => log c.tree ++ todo = c.plan F
  | .tryBank c | .publish c => Matches F c p ∧ log c.tree = []
  | .loadFirst c | .head c _ => Published F c p ∧ p.clogGroupMember = true ∧ log c.tree = []
  | .cas c nextidx => Published F c p ∧ p.clogGroupMember = true ∧ p.clogGroupNext = nextidx ∧ log c.tree = []
  | .follow c | .lead c | .walk c _ _ | .wake c _ => Published F c p ∧ log c.tree = if served then c.plan F else []
  | .returned c => log c.tree = c.plan F

/-- `log` has the sections done for each tree, `served` the members whose section a leader has done. -/
structure Inv (F : Forest τ) (served : ι → Bool) (L : GroupList.Lists ι) (log : τ → List Section)
    (s : State ι κ τ) : Prop where
  group : GroupList.Inv (s.group served) L
  uncalled : ∀ t, s.fate t = none → log t = []
  called : ∀ t status, s.fate t = some status → (status = .committed ∨ status = .aborted) ∧
    log t <+: transactionIdSetTreeStatus (F.tree t) status
  pages : ∀ t, ∀ x ∈ (F.tree t).xids, transactionIdGetStatus s.pages x = statusAfter (log t) x
  fate : ∀ i c, (s.pc i).call = some c → s.fate c.tree = some c.status
  owner : ∀ i j c d, (s.pc i).call = some c → (s.pc j).call = some d → c.tree = d.tree → i = j
  placed : ∀ i, Placed F (s.proc i) (served i) log (s.pc i)

variable {F : Forest τ} {served : ι → Bool} {L : GroupList.Lists ι} {log log' : τ → List Section}
  {s : State ι κ τ} {i j : ι}

/-- A place depends on its own tree only. -/
theorem Placed.congr {p : Proc ι} {served : Bool} {pc : Pc ι τ} (h : Placed F p served log pc)
    (hlog : ∀ c, pc.call = some c → log' c.tree = log c.tree) : Placed F p served log' pc := by
  cases pc with
  | idle => trivial
  | direct c todo | tryBank c | publish c | loadFirst c | head c | cas c | follow c | lead c | walk c
  | wake c | returned c =>
    rw [Placed] at h ⊢
    rw [hlog c rfl]
    exact h

/-- At every point: nothing of the tree is committed, or the top level is, or the tree is aborted. -/
theorem Inv.shape (h : Inv F served L log s) (t : τ) : (transactionIdGetStatus s.pages (F.tree t).top ≠ .committed ∧
      ∀ x ∈ (F.tree t).xids, transactionIdGetStatus s.pages x ≠ .committed) ∨
    (transactionIdGetStatus s.pages (F.tree t).top = .committed ∧ s.fate t = some .committed ∧
      ∀ x ∈ (F.tree t).subxids, transactionIdGetStatus s.pages x = .subCommitted ∨
        transactionIdGetStatus s.pages x = .committed) := by
  have htop : (F.tree t).top ∈ (F.tree t).xids := mem_cons_self
  by_cases hnone : ∀ x ∈ (F.tree t).xids, statusAfter (log t) x ≠ .committed
  · left
    have hpages : ∀ x ∈ (F.tree t).xids, transactionIdGetStatus s.pages x ≠ .committed := by
      intro x hx
      rw [h.pages t x hx]
      exact hnone x hx
    exact ⟨hpages _ htop, hpages⟩
  right
  cases hfate : s.fate t with
  | none =>
    refine absurd (fun x _ => ?_) hnone
    rw [h.uncalled t hfate]
    nofun
  | some status =>
    obtain ⟨rfl | rfl, hlog⟩ := h.called t status hfate
    · cases commit_shape (F.top_not_mem t) hlog with
      | inl hbefore =>
        refine absurd (fun x hx => ?_) hnone
        rcases mem_cons.mp hx with rfl | hx
        · rw [hbefore.1]
          nofun
        · cases hbefore.2 x hx with
          | inl hst | inr hst =>
            rw [hst]
            nofun
      | inr hafter =>
        rw [h.pages t _ htop]
        refine ⟨hafter.1, rfl, fun x hx => ?_⟩
        rw [h.pages t x (mem_cons_of_mem _ hx)]
        exact hafter.2 x hx
    · refine absurd (fun x _ => ?_) hnone
      cases abort_shape hlog x with
      | inl hst | inr hst =>
        rw [hst]
        nofun

/-- What is final in pg_xact stays. -/
def Stable (F : Forest τ) (pages pages' : Pages) : Prop :=
  ∀ t, ∀ x ∈ (F.tree t).xids, transactionIdGetStatus pages x ≠ .inProgress →
    transactionIdGetStatus pages x ≠ .subCommitted →
    transactionIdGetStatus pages' x = transactionIdGetStatus pages x

variable [DecidableEq τ]

/-- The next section of a tree that has been called. -/
theorem Inv.write (h : Inv F served L log s) {c : Call τ} {sec : Section}
    (hnext : log c.tree ++ [sec] <+: c.plan F) :
    (∀ t, ∀ x ∈ (F.tree t).xids, transactionIdGetStatus (transactionIdSetPageStatusInternal s.pages sec) x =
        statusAfter (update log c.tree (log c.tree ++ [sec]) t) x) ∧
    Stable F s.pages (transactionIdSetPageStatusInternal s.pages sec) := by
  obtain ⟨honpage, hmem⟩ := plan_spec (F.tree c.tree) c.status (hnext.subset (mem_append_right _ mem_cons_self))
  have hpages : ∀ t, ∀ x ∈ (F.tree t).xids,
      transactionIdGetStatus (transactionIdSetPageStatusInternal s.pages sec) x =
        statusAfter (update log c.tree (log c.tree ++ [sec]) t) x := by
    intro t x hx
    rw [honpage.getStatus, h.pages t x hx]
    obtain rfl | ht := eq_or_ne t c.tree
    · rw [update_self, statusAfter_concat]
    · rw [update_of_ne ht, if_neg]
      intro hsec
      exact ht (F.disjoint t c.tree x hx (hmem x hsec))
  refine ⟨hpages, fun t x hx hprog hsub => ?_⟩
  rw [hpages t x hx]
  rw [h.pages t x hx] at hprog hsub ⊢
  obtain rfl | ht := eq_or_ne t c.tree
  · rw [update_self]
    exact statusAfter_final hnext hprog hsub
  · rw [update_of_ne ht]

/-- The logs behind a section of a call. -/
theorem Inv.called_write (h : Inv F served L log s) (hfate : s.fate c.tree = some c.status)
    (hnext : log c.tree ++ [sec] <+: c.plan F) (t : τ) (status : XidStatus)
    (ht : s.fate t = some status) :
    (status = .committed ∨ status = .aborted) ∧
      update log c.tree (log c.tree ++ [sec]) t <+: transactionIdSetTreeStatus (F.tree t) status := by
  have hcalled := h.called t status ht
  grind [update_apply, Call.plan]

theorem Inv.uncalled_write (h : Inv F served L log s) (hfate : s.fate c.tree = some c.status)
    (t : τ) (ht : s.fate t = none) : update log c.tree (log c.tree ++ [sec]) t = [] := by
  have huncalled := h.uncalled t ht
  grind [update_apply]

variable [DecidableEq ι] {p : Pc ι τ}

theorem group_move (s : State ι κ τ) (served : ι → Bool) (i : ι) (e : Effect ι τ) (p : Pc ι τ) :
    (s.move i e p).group served =
      { (s.act e).group served with phase := update (s.group served).phase i p.phase } := by
  rw [State.group]
  congr 1
  funext k
  exact apply_update (fun _ => Pc.phase) s.pc i p k

theorem group_setProc (s : State ι κ τ) (served : ι → Bool) (j : ι) (q : Proc ι) :
    State.group (s.act (.setProc j q)) served = { s.group served with
        next := update (s.group served).next j q.clogGroupNext
        member := update (s.group served).member j q.clogGroupMember } := by
  rw [State.group]
  congr 1
  · funext k
    exact apply_update (fun _ => Proc.clogGroupNext) s.proc j q k
  · funext k
    exact apply_update (fun _ => Proc.clogGroupMember) s.proc j q k

/-- At the same place of the list before and after. -/
theorem group_same (hphase : (s.pc i).phase = p.phase)
    (hact : ((s.act e).group served).phase = (s.group served).phase) :
    (s.move i e p).group served = (s.act e).group served := by
  have hsame : update (s.group served).phase i p.phase = (s.group served).phase := by
    rw [← hphase]
    exact update_eq_self i (s.group served).phase
  rw [group_move, hsame, ← hact]

variable {L' : GroupList.Lists ι}

section

variable (h : Inv F served L log s)
include h

/-- A step after which the calls are those there were, or one less. -/
theorem Inv.quiet (e : Effect ι τ) (hpages : (s.act e).pages = s.pages)
    (hfate : (s.act e).fate = s.fate) (hgroup : GroupList.Inv ((s.move i e p).group served') L')
    (hcall : p.call = (s.pc i).call ∨ p.call = none) (hself : Placed F ((s.act e).proc i) (served' i) log p)
    (hother : ∀ k, k ≠ i → Placed F ((s.act e).proc k) (served' k) log (s.pc k)) :
    Inv F served' L' log (s.move i e p) := by
  have hcalls : ∀ k c, ((s.move i e p).pc k).call = some c → (s.pc k).call = some c := by
    intro k c
    show (update s.pc i p k).call = some c → (s.pc k).call = some c
    grind [update_apply]
  constructor
  case group => exact hgroup
  case uncalled =>
    rw [State.move, hfate]
    exact h.uncalled
  case called =>
    rw [State.move, hfate]
    exact h.called
  case pages =>
    rw [State.move, hpages]
    exact h.pages
  case fate =>
    intro k c hc
    rw [State.move, hfate]
    exact h.fate k c (hcalls k c hc)
  case owner => exact fun k k' c d hc hd => h.owner k k' c d (hcalls k c hc) (hcalls k' d hd)
  case placed =>
    exact (forall_update_iff s.pc fun k pc => Placed F ((s.act e).proc k) (served' k) log pc).mpr ⟨hself, hother⟩

/-- A backend that is about to do the next section of the call of backend `j`. -/
theorem Inv.nextSection (hj : (s.pc j).call = some c) (hnext : log c.tree ++ [sec] <+: c.plan F)
    (hgroup : GroupList.Inv ((s.move i (.write sec) p).group served') L') (hcall : p.call = (s.pc i).call)
    (hserved : ∀ k, k ≠ j → served' k = served k)
    (hplaced : Placed F (s.proc j) (served' j) (update log c.tree (log c.tree ++ [sec]))
      (update s.pc i p j)) (hself : i ≠ j → Placed F (s.proc i) (served i) log p) :
    Inv F served' L' (update log c.tree (log c.tree ++ [sec])) (s.move i (.write sec) p) := by
  have hfate := h.fate j c hj
  obtain ⟨hpages, _⟩ := h.write hnext
  have hcalls : ∀ k, ((s.move i (.write sec) p).pc k).call = (s.pc k).call := by
    intro k
    show (update s.pc i p k).call = (s.pc k).call
    grind [update_apply]
  constructor
  case group => exact hgroup
  case uncalled => exact h.uncalled_write hfate
  case called => exact h.called_write hfate hnext
  case pages => exact hpages
  case fate =>
    intro k d hd
    rw [hcalls] at hd
    exact h.fate k d hd
  case owner =>
    intro k k' d d' hd hd'
    rw [hcalls] at hd hd'
    exact h.owner k k' d d' hd hd'
  case placed =>
    intro k
    obtain rfl | hkj := eq_or_ne k j
    · exact hplaced
    · have hk : Placed F (s.proc k) (served k) log (update s.pc i p k) := by
        have hold := h.placed k
        grind [update_apply]
      show Placed F (s.proc k) (served' k) _ (update s.pc i p k)
      rw [hserved k hkj]
      apply hk.congr
      intro d hd
      have hd : (s.pc k).call = some d := (hcalls k).symm.trans hd
      rw [update_of_ne]
      exact fun heq => hkj (h.owner k j d c hd hj heq)

/-- A new call: the tree has not been called before, so nobody else has it. -/
theorem Inv.newCall (hidle : s.pc i = .idle)
    (hstatus : c.status = .committed ∨ c.status = .aborted) (hnew : s.fate c.tree = none)
    (hcall : p.call = some c) (hout : p.phase = .out)
    (hplaced : Placed F (s.proc i) (served i) log p) :
    Inv F served L log (s.move i (.call c) p) := by
  have hfresh : ∀ k d, (s.pc k).call = some d → d.tree ≠ c.tree := by
    have hfate := h.fate
    grind
  constructor
  case group =>
    rw [group_same _ rfl]
    · exact h.group
    · rw [hidle, hout]
      rfl
  case uncalled =>
    have huncalled := h.uncalled
    show ∀ t, update s.fate c.tree (some c.status) t = none → _
    grind [update_apply]
  case called =>
    have hcalled := h.called
    have huncalled := h.uncalled
    show ∀ t status, update s.fate c.tree (some c.status) t = some status → _
    grind [update_apply]
  case pages => exact h.pages
  case fate =>
    have hfate := h.fate
    show ∀ k d, (update s.pc i p k).call = some d → update s.fate c.tree (some c.status) d.tree = some d.status
    grind [update_apply]
  case owner =>
    have howner := h.owner
    show ∀ k k' d d', (update s.pc i p k).call = some d → (update s.pc i p k').call = some d' → _
    grind
  case placed =>
    exact (forall_update_iff s.pc fun k pc => Placed F (s.proc k) (served k) log pc).mpr
      ⟨hplaced, fun k _ => h.placed k⟩

/-- What backend `i` publishes is its own `PGPROC`. -/
theorem Inv.ownProc (hout : (s.pc i).phase = .out) (hout' : p.phase = .out)
    (hcall : p.call = (s.pc i).call ∨ p.call = none) (hplaced : Placed F q (served i) log p) :
    Inv F served L log (s.move i (.setProc i q) p) := by
  have hgroup : GroupList.Inv ((s.move i (.setProc i q) p).group served) L := by
    rw [group_same (hout.trans hout'.symm) rfl, group_setProc]
    exact h.group.own hout _ _
  apply h.quiet (.setProc i q) rfl rfl hgroup hcall
  · show Placed F (update s.proc i q i) (served i) log p
    rw [update_self]
    exact hplaced
  · intro k hk
    show Placed F (update s.proc i q k) (served k) log (s.pc k)
    rw [update_of_ne hk]
    exact h.placed k

/-- A step without effect at a place out of the list. -/
theorem Inv.silent (hphase : (s.pc i).phase = p.phase)
    (hcall : p.call = (s.pc i).call ∨ p.call = none) (hplaced : Placed F (s.proc i) (served i) log p) :
    Inv F served L log (s.move i .silent p) := by
  have hgroup : GroupList.Inv ((s.move i .silent p).group served) L := by
    rw [group_same hphase rfl]
    exact h.group
  exact h.quiet .silent rfl rfl hgroup hcall hplaced fun k _ => h.placed k

/-- Joining the group, with nothing done for the call. -/
theorem Inv.join (hp : p = .follow c ∨ p = .lead c)
    (hcall : (s.pc i).call = some c) (hpub : Published F c (s.proc i)) (hlog : log c.tree = [])
    (hgroup : GroupList.Inv ((s.move i (.setFirst (some i)) p).group (update served i false)) L') :
    Inv F (update served i false) L' log (s.move i (.setFirst (some i)) p) := by
  apply h.quiet (.setFirst (some i)) rfl rfl hgroup
  · left
    rw [hcall]
    cases hp with
    | inl hp | inr hp => rw [hp]; rfl
  · rw [update_self]
    cases hp with
    | inl hp | inr hp => rw [hp]; exact ⟨hpub, hlog⟩
  · intro k hk
    rw [update_of_ne hk]
    exact h.placed k

end

omit [DecidableEq ι] [DecidableEq τ] in
/-- A backend whose section a leader is to do. -/
theorem Inv.member (h : Inv F served L log s) (hphase : (s.pc j).phase = .follow ∨ (s.pc j).phase.leads = true) :
    ∃ c, (s.pc j).call = some c ∧ Published F c (s.proc j) ∧ log c.tree = if served j then c.plan F else [] := by
  have hplaced := h.placed j
  cases hpj : s.pc j with
  | follow c | walk c | wake c =>
    rw [hpj] at hplaced
    exact ⟨c, rfl, hplaced.1, hplaced.2⟩
  | _ =>
    rw [hpj] at hphase
    cases hphase with
    | inl hfollow => cases hfollow
    | inr hlead => cases hlead

/-- The leader does the section of the next member. -/
theorem Inv.serve (h : Inv F served L log s) (hp : s.pc i = .walk c (some j) wakeidx)
    (hphase : (s.group served).phase i = .walk (some j) wakeidx) :
    ∃ served' L' log', Inv F served' L' log' (s.move i (.write (s.proc j).memberSection)
        (.walk c (s.proc j).clogGroupNext wakeidx)) ∧
      Stable F s.pages (s.move i (.write (s.proc j).memberSection)
        (.walk c (s.proc j).clogGroupNext wakeidx)).pages := by
  obtain ⟨hj, hserved⟩ := h.group.unserved_of_serve hphase
  have hjphase : (s.pc j).phase = .follow ∨ (s.pc j).phase.leads = true := by
    refine hj.imp_right fun heq => ?_
    rw [heq, hp]
    rfl
  obtain ⟨d, hd, hpub, hlog⟩ := h.member hjphase
  have hfresh : served j = false := hserved
  rw [hfresh] at hlog
  have hplan := hpub.plan_eq
  rw [← hpub.member] at hplan
  have hnext : log d.tree ++ [(s.proc j).memberSection] <+: d.plan F := by
    rw [hlog, hplan]
    exact prefix_rfl
  have hdone : update log d.tree (log d.tree ++ [(s.proc j).memberSection]) d.tree = d.plan F := by
    rw [update_self, hlog, hplan]
    rfl
  obtain ⟨L', hL'⟩ := h.group.step (.serve j wakeidx hphase)
  refine ⟨update served j true, L', _, h.nextSection hd hnext ?_ (by rw [hp]; rfl)
    (fun k hk => update_of_ne hk _ _) ?_ ?_, (h.write hnext).2⟩
  · rw [group_move]
    exact hL'
  · rw [update_self]
    obtain rfl | hji := eq_or_ne j i
    · rw [hp] at hd
      cases hd
      rw [update_self]
      exact ⟨hpub, hdone⟩
    · rw [update_of_ne hji]
      have hfollow : (s.pc j).phase = .follow := hj.resolve_right hji
      cases hpj : s.pc j with
      | follow =>
        rw [hpj] at hd
        cases hd
        exact ⟨hpub, hdone⟩
      | _ =>
        rw [hpj] at hfollow
        cases hfollow
  · intro _
    have hi := h.placed i
    rw [hp] at hi
    exact hi

/-- The leader lets a member go. -/
theorem Inv.tell (h : Inv F served L log s) (hp : s.pc i = .wake c (some j))
    (hphase : (s.group served).phase i = .wake (some j)) (hfixed : Stable F s.pages s.pages) :
    ∃ served' L' log',
      Inv F served' L' log' (s.move i (.setProc j { s.proc j with clogGroupMember := false, clogGroupNext := none })
        (.wake c (s.proc j).clogGroupNext)) ∧
      Stable F s.pages (s.move i (.setProc j { s.proc j with clogGroupMember := false, clogGroupNext := none })
        (.wake c (s.proc j).clogGroupNext)).pages := by
  have hmine := h.placed i
  rw [hp] at hmine
  obtain ⟨L', hL'⟩ := h.group.step (.wakeOne j hphase)
  refine ⟨served, L', log, h.quiet _ rfl rfl ?_ (.inl (by rw [hp]; rfl)) ?_ ?_, hfixed⟩
  · rw [group_move, group_setProc]
    exact hL'
  · show Published F c (update s.proc j _ i) ∧ _
    obtain rfl | hij := eq_or_ne i j
    · rw [update_self]
      exact ⟨hmine.1.woken, hmine.2⟩
    · rw [update_of_ne hij]
      exact hmine
  · intro k hk
    show Placed F (update s.proc j _ k) (served k) log (s.pc k)
    obtain rfl | hkj := eq_or_ne k j
    · rw [update_self]
      have hplaced := h.placed k
      have hfollow : (s.pc k).phase = .follow := (h.group.phase_of_wakeOne hphase).resolve_right hk
      cases hpk : s.pc k with
      | follow =>
        rw [hpk] at hplaced
        exact ⟨hplaced.1.woken, hplaced.2⟩
      | _ =>
        rw [hpk] at hfollow
        cases hfollow
    · rw [update_of_ne hkj]
      exact h.placed k

/-- A step of a backend. -/
theorem Inv.step {e : Effect ι τ} (h : Inv F served L log s) (hmove : Move F s i (s.pc i) e p) :
    ∃ served' L' log', Inv F served' L' log' (s.move i e p) ∧ Stable F s.pages (s.move i e p).pages := by
  have hplaced := h.placed i
  have hfixed : Stable F s.pages s.pages := fun _ _ _ _ _ => rfl
  generalize hp : s.pc i = pc at hmove
  rw [hp] at hplaced
  have hphase : (s.group served).phase i = pc.phase := congrArg Pc.phase hp
  have hcall : pc.call = (s.pc i).call := (congrArg Pc.call hp).symm
  cases hmove with
  | assign => exact ⟨served, L, log, h.ownProc hphase rfl (.inr rfl) trivial, hfixed⟩
  | callDirect c hstatus hnew =>
    refine ⟨served, L, log, h.newCall hp hstatus hnew rfl rfl ?_, hfixed⟩
    show log c.tree ++ _ = _
    rw [h.uncalled c.tree hnew]
    rfl
  | callGroup c hstatus hnew hjoin =>
    refine ⟨served, L, log, h.newCall hp hstatus hnew rfl rfl ⟨?_, h.uncalled c.tree hnew⟩, hfixed⟩
    simp only [mayJoin, Bool.and_eq_true, List.isEmpty_iff, beq_iff_eq] at hjoin
    exact ⟨hjoin.1.1.1, hjoin.2.symm⟩
  | direct c sec todo =>
    have hplan : log c.tree ++ sec :: todo = c.plan F := hplaced
    have hnext : log c.tree ++ [sec] <+: c.plan F := by
      rw [← hplan]
      exact ⟨todo, append_assoc _ _ _⟩
    refine ⟨served, L, _, h.nextSection hcall.symm hnext ?_ hcall (fun _ _ => rfl) ?_
      (fun hne => absurd rfl hne), (h.write hnext).2⟩
    · rw [group_same (p := .direct c todo) hphase rfl]
      exact h.group
    · rw [update_self]
      show update log c.tree _ c.tree ++ todo = _
      rw [update_self, ← append_cons, hplan]
  | directDone c =>
    refine ⟨served, L, log, h.silent hphase (.inl hcall) ?_, hfixed⟩
    have hplan : log c.tree ++ [] = c.plan F := hplaced
    rw [append_nil] at hplan
    exact hplan
  | bankFree c =>
    obtain ⟨hmatch, hlog⟩ := hplaced
    have hnext : log c.tree ++ [(F.tree c.tree).mainSection c.status] <+: c.plan F := by
      rw [hlog, hmatch.plan_eq]
      exact prefix_rfl
    refine ⟨served, L, _, h.nextSection hcall.symm hnext ?_ hcall (fun _ _ => rfl) ?_
      (fun hne => absurd rfl hne), (h.write hnext).2⟩
    · rw [group_same (p := .returned c) hphase rfl]
      exact h.group
    · rw [update_self]
      show update log c.tree _ c.tree = _
      rw [update_self, hlog, hmatch.plan_eq]
      rfl
  | bankBusy | loadFirst => exact ⟨served, L, log, h.silent hphase (.inl hcall) hplaced, hfixed⟩
  | publish =>
    obtain ⟨hmatch, hlog⟩ := hplaced
    refine ⟨served, L, log, h.ownProc hphase rfl (.inl hcall)
      ⟨⟨⟨hmatch.onePage, hmatch.subxids⟩, ?_⟩, rfl, hlog⟩, hfixed⟩
    rw [Proc.memberSection, Tree.mainSection, hmatch.firstPage]
  | refused c =>
    obtain ⟨hpub, _, hlog⟩ := hplaced
    refine ⟨served, L, log, h.ownProc hphase rfl (.inl hcall) ?_, hfixed⟩
    show log c.tree ++ _ = _
    rw [hlog, hpub.plan_eq]
    rfl
  | link =>
    obtain ⟨hpub, hmember, hlog⟩ := hplaced
    exact ⟨served, L, log, h.ownProc hphase rfl (.inl hcall)
      ⟨⟨⟨hpub.onePage, hpub.subxids⟩, hpub.member⟩, hmember, rfl, hlog⟩, hfixed⟩
  | casFail =>
    obtain ⟨hpub, hmember, _, hlog⟩ := hplaced
    exact ⟨served, L, log, h.silent hphase (.inl hcall) ⟨hpub, hmember, hlog⟩, hfixed⟩
  | leave => exact ⟨served, L, log, h.silent hphase (.inr rfl) trivial, hfixed⟩
  | casFollow c j hfirst =>
    obtain ⟨hpub, hmember, hnext, hlog⟩ := hplaced
    obtain ⟨L', hL'⟩ := h.group.step (.joinFollow j hphase hfirst hnext hmember)
    exact ⟨_, L', log, h.join (.inl rfl) hcall.symm hpub hlog (by rw [group_move]; exact hL'), hfixed⟩
  | casLead c hfirst =>
    obtain ⟨hpub, hmember, hnext, hlog⟩ := hplaced
    obtain ⟨L', hL'⟩ := h.group.step (.joinLead hphase hfirst hnext hmember)
    exact ⟨_, L', log, h.join (.inr rfl) hcall.symm hpub hlog (by rw [group_move]; exact hL'), hfixed⟩
  | followed c hmember =>
    have hserved : served i = true := h.group.served_of_leave hphase hmember
    obtain ⟨L', hL'⟩ := h.group.step (.leave hphase hmember)
    refine ⟨served, L', log, h.quiet .silent rfl rfl ?_ (.inl hcall) ?_ fun k _ => h.placed k, hfixed⟩
    · rw [group_move]
      exact hL'
    · have hlog := hplaced.2
      rw [hserved] at hlog
      exact hlog
  | detach =>
    obtain ⟨L', hL'⟩ := h.group.step (.detach hphase)
    refine ⟨served, L', log, h.quiet (.setFirst none) rfl rfl ?_ (.inl hcall) hplaced fun k _ => h.placed k, hfixed⟩
    rw [group_move]
    exact hL'
  | walk => exact h.serve hp hphase
  | walked c wakeidx =>
    obtain ⟨L', hL'⟩ := h.group.step (.walked wakeidx hphase)
    refine ⟨served, L', log, h.quiet .silent rfl rfl ?_ (.inl hcall) hplaced fun k _ => h.placed k, hfixed⟩
    rw [group_move]
    exact hL'
  | wake => exact h.tell hp hphase hfixed
  | woken =>
    have hserved : served i = true := h.group.served_of_woken hphase
    obtain ⟨L', hL'⟩ := h.group.step (.woken hphase)
    refine ⟨served, L', log, h.quiet .silent rfl rfl ?_ (.inl hcall) ?_ fun k _ => h.placed k, hfixed⟩
    · rw [group_move]
      exact hL'
    · have hlog := hplaced.2
      rw [hserved] at hlog
      exact hlog

end Clog
