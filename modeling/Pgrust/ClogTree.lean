import Mathlib.Data.List.TakeWhile
import Pgrust.ClogPages

/-!
What `TransactionIdSetTreeStatus` writes for a transaction and its subtransactions: a list of
sections, each under the bank lock of one page. With the subtransactions on other pages a commit has
three passes: those are sub-committed first, then the top level is committed with what shares its
page, then the others are committed.
-/
namespace Clog

open XidOrder List

/-- One call of `TransactionIdSetPageStatusInternal`; `xid` may be invalid. -/
structure Section where
  xid : Option TransactionId
  subxids : List TransactionId
  status : XidStatus
  pageno : Nat

/-- The transactions whose status the section sets. -/
def Section.xids (sec : Section) : List TransactionId := sec.xid.toList ++ sec.subxids

/-- Everything the section sets is on its page. -/
def Section.OnPage (sec : Section) : Prop := ∀ x ∈ sec.xids, transactionIdToPage x = sec.pageno

/-- Setting one status for a list of transactions of a page. -/
def setStatusBits (pages : Pages) (pageno : Nat) (xids : List TransactionId) (status : XidStatus) : Pages :=
  xids.foldl (fun pages xid => transactionIdSetStatusBit pages pageno xid status) pages

def transactionIdSetPageStatusInternal (pages : Pages) (sec : Section) : Pages :=
  let pages :=
    match sec.xid with
    | some xid =>
      -- the subtransactions come first, so that no half-written page has a committed parent
      let pages :=
        if sec.status = .committed then setStatusBits pages sec.pageno sec.subxids .subCommitted
        else pages
      transactionIdSetStatusBit pages sec.pageno xid sec.status
    | none => pages
  setStatusBits pages sec.pageno sec.subxids sec.status

theorem getStatus_setStatusBits (status : XidStatus) (hpage : ∀ x ∈ xids, transactionIdToPage x = pageno)
    (pages : Pages) (x : TransactionId) :
    transactionIdGetStatus (setStatusBits pages pageno xids status) x =
      if x ∈ xids then status else transactionIdGetStatus pages x := by
  induction xids generalizing pages with
  | nil => rfl
  | cons y ys ih =>
    have hy := hpage y mem_cons_self
    rw [setStatusBits, foldl_cons, ← setStatusBits, ih fun z hz => hpage z (mem_cons_of_mem y hz), ← hy]
    by_cases hmem : x ∈ ys
    · rw [if_pos hmem, if_pos (mem_cons_of_mem y hmem)]
    · rw [if_neg hmem]
      obtain rfl | hxy := eq_or_ne x y
      · rw [if_pos mem_cons_self, getStatus_setStatusBit_same]
      · rw [if_neg fun hcons => hmem ((mem_cons.mp hcons).resolve_left hxy),
          getStatus_setStatusBit_other pages status hxy]

variable {sec : Section} {x : TransactionId} {status : XidStatus}

/-- A section gives its transactions its status and leaves all others alone. -/
theorem Section.OnPage.getStatus (h : sec.OnPage) (pages : Pages) (x) :
    transactionIdGetStatus (transactionIdSetPageStatusInternal pages sec) x =
      if x ∈ sec.xids then sec.status else transactionIdGetStatus pages x := by
  obtain ⟨xid, subxids, status, pageno⟩ := sec
  have hsubs : ∀ y ∈ subxids, transactionIdToPage y = pageno := fun y hy => h y (mem_append_right _ hy)
  rw [transactionIdSetPageStatusInternal]
  rw [getStatus_setStatusBits status hsubs]
  by_cases hx : x ∈ subxids
  · rw [if_pos hx, if_pos]
    exact mem_append_right _ hx
  · rw [if_neg hx]
    cases xid with
    | none =>
      have hnot : x ∉ Section.xids ⟨none, subxids, status, pageno⟩ := hx
      rw [if_neg hnot]
    | some top =>
      have htop : transactionIdToPage top = pageno := h top (mem_append_left _ mem_cons_self)
      rw [← htop]
      obtain rfl | hxt := eq_or_ne x top
      · rw [getStatus_setStatusBit_same, if_pos]
        exact mem_append_left _ mem_cons_self
      · have hnot : x ∉ Section.xids ⟨some top, subxids, status, transactionIdToPage top⟩ :=
          fun hmem => (mem_cons.mp hmem).elim hxt hx
        rw [getStatus_setStatusBit_other _ status hxt]
        split
        · rw [htop, getStatus_setStatusBits _ hsubs, if_neg hx]
        · rfl

/-- A transaction with its subtransactions. -/
structure Tree where
  top : TransactionId
  subxids : List TransactionId

def Tree.xids (tree : Tree) : List TransactionId := tree.top :: tree.subxids

/-- The first subtransaction and those behind it on the same page, and so on. -/
def setStatusByPages (status : XidStatus) : List TransactionId → List Section
  | [] => []
  | x :: xs =>
    ⟨none, x :: xs.takeWhile (fun y => transactionIdToPage y == transactionIdToPage x), status,
      transactionIdToPage x⟩ ::
    setStatusByPages status (xs.dropWhile fun y => transactionIdToPage y == transactionIdToPage x)
  termination_by xids => xids.length
  decreasing_by
    have := (dropWhile_suffix (l := xs) fun y => transactionIdToPage y == transactionIdToPage x).length_le
    simp only [length_cons]
    omega

/-- The subtransactions at the front that share the page of the top level. -/
def Tree.firstPage (tree : Tree) : List TransactionId :=
  tree.subxids.takeWhile fun x => transactionIdToPage x == transactionIdToPage tree.top

def Tree.otherPages (tree : Tree) : List TransactionId :=
  tree.subxids.dropWhile fun x => transactionIdToPage x == transactionIdToPage tree.top

/-- The section that sets the status of the top level. -/
def Tree.mainSection (tree : Tree) (status : XidStatus) : Section :=
  ⟨some tree.top, tree.firstPage, status, transactionIdToPage tree.top⟩

/-- The sections of `TransactionIdSetTreeStatus`. -/
def transactionIdSetTreeStatus (tree : Tree) (status : XidStatus) : List Section :=
  if tree.otherPages = [] then [tree.mainSection status]
  else
    (if status = .committed then setStatusByPages .subCommitted tree.otherPages else []) ++
      tree.mainSection status :: setStatusByPages status tree.otherPages

theorem setStatusByPages_cons (status) (x) (xs : List TransactionId) : setStatusByPages status (x :: xs) =
      ⟨none, x :: xs.takeWhile (fun y => transactionIdToPage y == transactionIdToPage x), status,
        transactionIdToPage x⟩ ::
      setStatusByPages status (xs.dropWhile fun y => transactionIdToPage y == transactionIdToPage x) := by
  rw [setStatusByPages]

theorem page_of_mem_takeWhile {xs : List TransactionId} {y : TransactionId}
    (h : y ∈ xs.takeWhile fun y => transactionIdToPage y == transactionIdToPage x) :
    transactionIdToPage y = transactionIdToPage x := by
  have htest := mem_takeWhile_imp h
  exact beq_iff_eq.mp htest

/-- What the sections by pages are. -/
theorem setStatusByPages_spec (status) (xids : List TransactionId) :
    (∀ sec ∈ setStatusByPages status xids, sec.status = status ∧ sec.OnPage ∧ ∀ x ∈ sec.xids, x ∈ xids) ∧
    ∀ x ∈ xids, ∃ sec ∈ setStatusByPages status xids, x ∈ sec.xids := by
  induction xids using setStatusByPages.induct with
  | case1 =>
    rw [setStatusByPages]
    exact ⟨nofun, nofun⟩
  | case2 x xs ih =>
    rw [setStatusByPages_cons]
    constructor
    · intro sec hsec
      cases mem_cons.mp hsec with
      | inl hhead =>
        subst hhead
        refine ⟨rfl, ?_, ?_⟩
        · intro y hy
          cases mem_cons.mp hy with
          | inl heq => rw [heq]
          | inr htake => exact page_of_mem_takeWhile htake
        · intro y hy
          cases mem_cons.mp hy with
          | inl heq => exact mem_cons.mpr (.inl heq)
          | inr htake => exact mem_cons_of_mem x ((List.takeWhile_prefix _).subset htake)
      | inr htail =>
        obtain ⟨hstatus, hpage, hmem⟩ := ih.1 sec htail
        exact ⟨hstatus, hpage, fun y hy => mem_cons_of_mem x ((dropWhile_suffix _).subset (hmem y hy))⟩
    · intro y hy
      cases mem_cons.mp hy with
      | inl heq => exact ⟨_, mem_cons_self, mem_cons.mpr (.inl heq)⟩
      | inr htail =>
        rw [← takeWhile_append_dropWhile (l := xs)
          (p := fun y => transactionIdToPage y == transactionIdToPage x), mem_append] at htail
        cases htail with
        | inl htake => exact ⟨_, mem_cons_self, mem_cons_of_mem x htake⟩
        | inr hdrop =>
          obtain ⟨sec, hsec, hmem⟩ := ih.2 y hdrop
          exact ⟨sec, mem_cons_of_mem _ hsec, hmem⟩

/-- The status of a transaction behind some sections, from in progress. -/
def statusAfter (done : List Section) (x : TransactionId) : XidStatus :=
  done.foldl (fun status sec => if x ∈ sec.xids then sec.status else status) .inProgress

theorem statusAfter_concat (done : List Section) (sec) (x) :
    statusAfter (done ++ [sec]) x = if x ∈ sec.xids then sec.status else statusAfter done x := by
  rw [statusAfter, foldl_append]
  rfl

/-- Behind sections that all set one status, a transaction has it if one of them names it. -/
theorem statusAfter_append (done more : List Section) (hall : ∀ sec ∈ more, sec.status = status) (x) :
    (statusAfter (done ++ more) x = status ∧ ∃ sec ∈ more, x ∈ sec.xids) ∨
      (statusAfter (done ++ more) x = statusAfter done x ∧ ∀ sec ∈ more, x ∉ sec.xids) := by
  induction more using List.reverseRecOn with
  | nil =>
    right
    rw [append_nil]
    exact ⟨rfl, nofun⟩
  | append_singleton more sec ih =>
    rw [← append_assoc, statusAfter_concat]
    by_cases hx : x ∈ sec.xids
    · left
      rw [if_pos hx]
      exact ⟨hall sec (mem_append_right _ mem_cons_self), sec, mem_append_right _ mem_cons_self, hx⟩
    · rw [if_neg hx]
      cases ih fun sec' hsec' => hall sec' (mem_append_left _ hsec') with
      | inl hset =>
        obtain ⟨hstatus, sec', hsec', hx'⟩ := hset
        exact .inl ⟨hstatus, sec', mem_append_left _ hsec', hx'⟩
      | inr hkept =>
        refine .inr ⟨hkept.1, fun sec' hsec' => ?_⟩
        cases mem_append.mp hsec' with
        | inl hold => exact hkept.2 sec' hold
        | inr hnew =>
          rw [mem_singleton.mp hnew]
          exact hx

theorem prefix_append_cons {α : Type} {pre post done : List α} {m : α} (h : done <+: pre ++ m :: post) :
    done <+: pre ∨ ∃ post', post' <+: post ∧ done = pre ++ m :: post' := by
  obtain ⟨more, hmore⟩ := h
  cases append_eq_append_iff.mp hmore with
  | inl hin =>
    obtain ⟨rest, hpre, _⟩ := hin
    exact .inl ⟨rest, hpre.symm⟩
  | inr hout =>
    obtain ⟨c, hdone, hpost⟩ := hout
    cases c with
    | nil =>
      rw [append_nil] at hdone
      exact .inl (hdone ▸ prefix_rfl)
    | cons d c =>
      cases hpost
      exact .inr ⟨c, prefix_append c more, hdone⟩

section Plan

variable (tree : Tree)

/-- The sections before the one of the top level. -/
def Tree.before (status : XidStatus) : List Section :=
  if status = .committed then setStatusByPages .subCommitted tree.otherPages else []

theorem plan_eq (status) : transactionIdSetTreeStatus tree status =
      tree.before status ++ tree.mainSection status :: setStatusByPages status tree.otherPages := by
  rw [transactionIdSetTreeStatus, Tree.before]
  by_cases hnil : tree.otherPages = []
  · rw [if_pos hnil, hnil, setStatusByPages, setStatusByPages]
    split <;> rfl
  · rw [if_neg hnil]

theorem firstPage_append_otherPages : tree.firstPage ++ tree.otherPages = tree.subxids := takeWhile_append_dropWhile

theorem mem_subxids : x ∈ tree.subxids ↔ x ∈ tree.firstPage ∨ x ∈ tree.otherPages := by
  rw [← firstPage_append_otherPages, mem_append]

theorem before_spec (status) :
    (∀ sec ∈ tree.before status, sec.status = .subCommitted ∧ sec.OnPage ∧ ∀ x ∈ sec.xids, x ∈ tree.otherPages) ∧
    (status = .committed → ∀ x ∈ tree.otherPages, ∃ sec ∈ tree.before status, x ∈ sec.xids) := by
  have hspec := setStatusByPages_spec .subCommitted tree.otherPages
  rw [Tree.before]
  split_ifs with hst
  · exact ⟨hspec.1, fun _ => hspec.2⟩
  · exact ⟨nofun, fun h => absurd h hst⟩

theorem mainSection_onPage (status) : (tree.mainSection status).OnPage := by
  intro x hx
  cases mem_cons.mp hx with
  | inl htop => rw [htop]; rfl
  | inr hfirst => exact page_of_mem_takeWhile hfirst

/-- Every section is on its page and sets transactions of the tree only. -/
theorem plan_spec (status) (h : sec ∈ transactionIdSetTreeStatus tree status) :
    sec.OnPage ∧ ∀ x ∈ sec.xids, x ∈ tree.xids := by
  rw [plan_eq, mem_append, mem_cons] at h
  rcases h with hbefore | rfl | hafter
  · obtain ⟨_, hpage, hmem⟩ := (before_spec tree status).1 sec hbefore
    exact ⟨hpage, fun x hx => mem_cons_of_mem _ ((mem_subxids tree).mpr (.inr (hmem x hx)))⟩
  · refine ⟨mainSection_onPage tree status, fun x hx => ?_⟩
    exact mem_cons.mpr ((mem_cons.mp hx).imp_right fun hfirst => (mem_subxids tree).mpr (.inl hfirst))
  · obtain ⟨_, hpage, hmem⟩ := (setStatusByPages_spec status tree.otherPages).1 sec hafter
    exact ⟨hpage, fun x hx => mem_cons_of_mem _ ((mem_subxids tree).mpr (.inr (hmem x hx)))⟩

/-- From the section of the top level on: it has the status, and so has everything that is not still
sub-committed or, in an abort, still in progress. -/
theorem statusAfter_main (hpost : post <+: setStatusByPages status tree.otherPages) (x) :
    (statusAfter (tree.before status ++ tree.mainSection status :: post) x = status ∧
      (x ∈ (tree.mainSection status).xids ∨ ∃ sec ∈ post, x ∈ sec.xids)) ∨
    (statusAfter (tree.before status ++ tree.mainSection status :: post) x = statusAfter (tree.before status) x ∧
      x ∉ (tree.mainSection status).xids ∧ ∀ sec ∈ post, x ∉ sec.xids) := by
  have hall : ∀ sec ∈ tree.mainSection status :: post, sec.status = status := by
    intro sec hsec
    cases mem_cons.mp hsec with
    | inl hmain => rw [hmain]; rfl
    | inr htail => exact ((setStatusByPages_spec status tree.otherPages).1 sec (hpost.subset htail)).1
  cases statusAfter_append (tree.before status) (tree.mainSection status :: post) hall x with
  | inl hset =>
    obtain ⟨hstatus, sec, hsec, hx⟩ := hset
    refine .inl ⟨hstatus, ?_⟩
    cases mem_cons.mp hsec with
    | inl hmain => exact .inl (hmain ▸ hx)
    | inr htail => exact .inr ⟨sec, htail, hx⟩
  | inr hkept => exact .inr ⟨hkept.1, hkept.2 _ mem_cons_self, fun sec hsec => hkept.2 sec (mem_cons_of_mem _ hsec)⟩

theorem statusAfter_before (hdone : done <+: tree.before status) (x) :
    (statusAfter done x = .subCommitted ∧ x ∈ tree.otherPages) ∨ statusAfter done x = .inProgress := by
  have hspec := (before_spec tree status).1
  cases statusAfter_append [] done (fun sec hsec => (hspec sec (hdone.subset hsec)).1) x with
  | inl hset =>
    obtain ⟨hstatus, sec, hsec, hx⟩ := hset
    exact .inl ⟨hstatus, (hspec sec (hdone.subset hsec)).2.2 x hx⟩
  | inr hkept => exact .inr hkept.1

/-- With all sections done everything has the status. -/
theorem statusAfter_plan (status) (hx : x ∈ tree.xids) :
    statusAfter (transactionIdSetTreeStatus tree status) x = status := by
  rw [plan_eq]
  cases statusAfter_main tree (prefix_refl (setStatusByPages status tree.otherPages)) x with
  | inl hset => exact hset.1
  | inr hkept =>
    exfalso
    cases mem_cons.mp hx with
    | inl htop => exact hkept.2.1 (mem_cons.mpr (.inl htop))
    | inr hsub =>
      cases (mem_subxids tree).mp hsub with
      | inl hfirst => exact hkept.2.1 (mem_cons_of_mem _ hfirst)
      | inr hother =>
        obtain ⟨sec, hsec, hmem⟩ := (setStatusByPages_spec status tree.otherPages).2 x hother
        exact hkept.2.2 sec hsec hmem

variable {tree} {done : List Section}

/-- At every point of a commit either the top level is in progress and nothing is committed, or the
top level is committed and every subtransaction is at least sub-committed. -/
theorem commit_shape (htop : tree.top ∉ tree.subxids)
    (hdone : done <+: transactionIdSetTreeStatus tree .committed) :
    (statusAfter done tree.top = .inProgress ∧
      ∀ x ∈ tree.subxids, statusAfter done x = .inProgress ∨ statusAfter done x = .subCommitted) ∨
    (statusAfter done tree.top = .committed ∧
      ∀ x ∈ tree.subxids, statusAfter done x = .subCommitted ∨ statusAfter done x = .committed) := by
  rw [plan_eq] at hdone
  cases prefix_append_cons hdone with
  | inl hbefore =>
    left
    constructor
    · refine (statusAfter_before tree hbefore tree.top).resolve_left fun hsub => htop ?_
      exact (mem_subxids tree).mpr (.inr hsub.2)
    · exact fun x _ => (statusAfter_before tree hbefore x).symm.imp_right And.left
  | inr hafter =>
    obtain ⟨post, hpost, rfl⟩ := hafter
    right
    constructor
    · cases statusAfter_main tree hpost tree.top with
      | inl hset => exact hset.1
      | inr hkept => exact absurd mem_cons_self hkept.2.1
    · intro x hx
      cases statusAfter_main tree hpost x with
      | inl hset => exact .inr hset.1
      | inr hkept =>
        left
        rw [hkept.1]
        have hother : x ∈ tree.otherPages :=
          ((mem_subxids tree).mp hx).resolve_left fun hfirst => hkept.2.1 (mem_cons_of_mem _ hfirst)
        obtain ⟨sec, hsec, hmem⟩ := (before_spec tree .committed).2 rfl x hother
        cases statusAfter_append [] (tree.before .committed)
            (fun sec' hsec' => ((before_spec tree .committed).1 sec' hsec').1) x with
        | inl hset => exact hset.1
        | inr hnone => exact absurd hmem (hnone.2 sec hsec)

theorem abort_shape (hdone : done <+: transactionIdSetTreeStatus tree .aborted) (x) :
    statusAfter done x = .inProgress ∨ statusAfter done x = .aborted := by
  have hall : ∀ sec ∈ done, sec.status = .aborted := by
    intro sec hsec
    have hmem := hdone.subset hsec
    rw [plan_eq, mem_append, mem_cons] at hmem
    rcases hmem with hbefore | rfl | hafter
    · cases hbefore
    · rfl
    · exact ((setStatusByPages_spec .aborted tree.otherPages).1 sec hafter).1
  exact (statusAfter_append [] done hall x).symm.imp And.left And.left

/-- A status that is final stays. -/
theorem statusAfter_final (hnext : done ++ [sec] <+: transactionIdSetTreeStatus tree status)
    (hfinal : statusAfter done x ≠ .inProgress) (hfinal' : statusAfter done x ≠ .subCommitted) :
    statusAfter (done ++ [sec]) x = statusAfter done x := by
  rw [plan_eq] at hnext
  have hdone := (prefix_append done [sec]).trans hnext
  cases prefix_append_cons hdone with
  | inl hbefore =>
    exact ((statusAfter_before tree hbefore x).elim (fun hsub => hfinal' hsub.1) hfinal).elim
  | inr hafter =>
    obtain ⟨post, hpost, rfl⟩ := hafter
    have hdone : statusAfter (tree.before status ++ tree.mainSection status :: post) x = status := by
      cases statusAfter_main tree hpost x with
      | inl hset => exact hset.1
      | inr hkept =>
        rw [hkept.1] at hfinal hfinal'
        exact ((statusAfter_before tree prefix_rfl x).elim (fun hsub => hfinal' hsub.1) hfinal).elim
    rw [append_assoc, cons_append, prefix_append_right_inj, cons_prefix_cons] at hnext
    have hsec := hnext.2.subset (mem_append_right _ mem_cons_self)
    have hstatus := ((setStatusByPages_spec status tree.otherPages).1 sec hsec).1
    rw [statusAfter_concat, hdone]
    split
    · exact hstatus
    · rfl

end Plan

end Clog
