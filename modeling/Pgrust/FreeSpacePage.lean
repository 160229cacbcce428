import Mathlib.Algebra.Group.Nat.Defs
import Mathlib.Order.Nat
import Pgrust.MaxTree

/-!
One page of the free space map: a tree of maxima over the categories of its slots, and a hint
where the next search begins. The tree is kept by `fsmSetAvail`, searched by `fsmSearchAvail` and
repaired by `fsmRebuildPage`. Nodes are numbered from the root; the node of slot `s` is
`nonLeafNodesPerPage + s`.
-/
namespace FreeSpacePage

open Function (update_apply update update_of_ne update_eq_self update_self)

def blcksz : Nat := 8192

/-- Where the contents of a page begin, past the header. -/
def contentsOff : Nat := 24

def nonLeafNodesPerPage : Nat := blcksz / 2 - 1

def nodesPerPage : Nat := blcksz - contentsOff - 4

def leafNodesPerPage : Nat := nodesPerPage - nonLeafNodesPerPage

def slotsPerFsmPage : Nat := leafNodesPerPage

theorem nonLeafNodesPerPage_eq : nonLeafNodesPerPage = 4095 := rfl
theorem nodesPerPage_eq : nodesPerPage = 8164 := rfl
theorem leafNodesPerPage_eq : leafNodesPerPage = 4069 := rfl
theorem slotsPerFsmPage_eq : slotsPerFsmPage = 4069 := rfl

/-- A page of the map. A page that was never written has `isNew` set. The hint is read back as it
stands in the file, so it may be any number. -/
structure FsmPage where
  isNew : Bool
  nextSlot : Int
  node : Nat → Nat

/-- A page the file was extended by. -/
def FsmPage.zero : FsmPage := ⟨true, 0, fun _ => 0⟩

/-- `PageInit` clears the page. -/
def FsmPage.init (_ : FsmPage) : FsmPage := ⟨false, 0, fun _ => 0⟩

def FsmPage.setNode (page : FsmPage) (nodeno value : Nat) : FsmPage :=
  { page with node := update page.node nodeno value }

def FsmPage.setNextSlot (page : FsmPage) (value : Int) : FsmPage := { page with nextSlot := value }

def leftchild (x : Nat) : Nat := 2 * x + 1

def parentof (x : Nat) : Nat := (x - 1) / 2

/-- The next node of the row, or the row's first one where `x` is its last. -/
def rightneighbor (x : Nat) : Nat := if (x + 1 + 1) &&& (x + 1) = 0 then parentof (x + 1) else x + 1

/-- The larger value of the children of a node that has a left one. -/
def newvalue (page : FsmPage) (nodeno : Nat) : Nat :=
  if leftchild nodeno + 1 < nodesPerPage then
    max (page.node (leftchild nodeno)) (page.node (leftchild nodeno + 1))
  else page.node (leftchild nodeno)

/-- The loop of `fsmSetAvail`: the ancestors of `nodeno` are set right, up to the first that already
is. -/
def raise (page : FsmPage) (nodeno : Nat) : FsmPage :=
  if page.node (parentof nodeno) = newvalue page (parentof nodeno) then page
  else if _h : parentof nodeno = 0 then
    page.setNode (parentof nodeno) (newvalue page (parentof nodeno))
  else raise (page.setNode (parentof nodeno) (newvalue page (parentof nodeno))) (parentof nodeno)
termination_by nodeno
decreasing_by
  simp only [parentof] at _h ⊢
  omega

/-- The maximum of the children that a node has. -/
def rebuilt (page : FsmPage) (nodeno : Nat) : Nat :=
  let value := if leftchild nodeno < nodesPerPage then page.node (leftchild nodeno) else 0
  if leftchild nodeno + 1 < nodesPerPage then max value (page.node (leftchild nodeno + 1)) else value

/-- The loop of `fsmRebuildPage` over the nodes below `n`, the last one first. -/
def rebuildFrom : Nat → Bool → FsmPage → Bool × FsmPage
  | 0, changed, page => (changed, page)
  | n + 1, changed, page =>
    if page.node n = rebuilt page n then rebuildFrom n changed page
    else rebuildFrom n true (page.setNode n (rebuilt page n))

/-- `fsm_rebuild_page`: every inner node is set from its children; the answer says whether one
changed. -/
def fsmRebuildPage (page : FsmPage) : Bool × FsmPage := rebuildFrom nonLeafNodesPerPage false page

/-- `fsm_set_avail`: the slot gets the value; the answer says whether the page changed. -/
def fsmSetAvail (page : FsmPage) (slot value : Nat) : Bool × FsmPage :=
  let nodeno := nonLeafNodesPerPage + slot
  if page.node nodeno = value ∧ value ≤ page.node 0 then (false, page)
  else
    let page := raise (page.setNode nodeno value) nodeno
    -- a value above the root means that the tree was torn before
    if page.node 0 < value then (true, (fsmRebuildPage page).2) else (true, page)

def fsmGetAvail (page : FsmPage) (slot : Nat) : Nat := page.node (nonLeafNodesPerPage + slot)

def fsmGetMaxAvail (page : FsmPage) : Nat := page.node 0

/-- The first loop of `fsmSearchAvail`: to the right, around the end of the row, and up, until a
node has enough. -/
def climb (page : FsmPage) (minvalue nodeno : Nat) : Nat :=
  if _h : 0 < nodeno then
    if minvalue ≤ page.node nodeno then nodeno
    else climb page minvalue (parentof (rightneighbor nodeno))
  else nodeno
termination_by nodeno
decreasing_by
  simp only [parentof, rightneighbor]
  split
  · omega
  · omega

/-- The second loop: down to a leaf with enough, the left child before the right one. The search
ends without a leaf at a node whose children have less than it says. -/
def descend (page : FsmPage) (minvalue nodeno : Nat) : Option Nat :=
  if _h : nodeno < nonLeafNodesPerPage then
    if leftchild nodeno < nodesPerPage ∧ minvalue ≤ page.node (leftchild nodeno) then
      descend page minvalue (leftchild nodeno)
    else if leftchild nodeno + 1 < nodesPerPage ∧ minvalue ≤ page.node (leftchild nodeno + 1) then
      descend page minvalue (leftchild nodeno + 1)
    else none
  else some nodeno
termination_by nonLeafNodesPerPage - nodeno
decreasing_by
  · simp only [leftchild]
    omega
  · simp only [leftchild]
    omega

/-- The leaf a search begins at: the hint, or the first one where the hint is out of range. -/
def target (page : FsmPage) : Nat :=
  if 0 ≤ page.nextSlot ∧ page.nextSlot < leafNodesPerPage then
    page.nextSlot.toNat + nonLeafNodesPerPage
  else nonLeafNodesPerPage

/-- The leaf that one round of the search reaches, with the root known to have enough. -/
def searched (page : FsmPage) (minvalue : Nat) : Option Nat :=
  descend page minvalue (climb page minvalue (target page))

/-! ### The tree -/

/-- The page is not torn. -/
def FsmPage.Whole (page : FsmPage) : Prop := MaxTree.Stands nonLeafNodesPerPage nodesPerPage page.node

variable {page : FsmPage}

@[simp] theorem setNode_node (n v : Nat) : (page.setNode n v).node = update page.node n v := rfl

theorem rebuilt_eq (n : Nat) : rebuilt page n = MaxTree.childMax nodesPerPage page.node n := by
  rw [rebuilt, MaxTree.childMax]
  by_cases hr : leftchild n + 1 < nodesPerPage
  · have hr' : 2 * n + 2 < nodesPerPage := hr
    rw [if_pos hr, if_pos hr']
    rfl
  · have hr' : ¬ 2 * n + 2 < nodesPerPage := hr
    rw [if_neg hr, if_neg hr']
    exact (Nat.max_zero _).symm

theorem newvalue_eq (h : leftchild n < nodesPerPage) :
    newvalue page n = MaxTree.childMax nodesPerPage page.node n := by
  rw [← rebuilt_eq, rebuilt, if_pos h]
  rfl

/-- What a change of the inner nodes keeps: the slots, and what is not a node. -/
structure SameSlots (page page' : FsmPage) : Prop where
  slots : ∀ x, nonLeafNodesPerPage ≤ x → page'.node x = page.node x
  isNew : page'.isNew = page.isNew
  nextSlot : page'.nextSlot = page.nextSlot

theorem SameSlots.refl (page) : SameSlots page page := ⟨fun _ _ => rfl, rfl, rfl⟩

theorem SameSlots.trans (h : SameSlots p q) (h' : SameSlots q r) : SameSlots p r where
  slots x hx := (h'.slots x hx).trans (h.slots x hx)
  isNew := h'.isNew.trans h.isNew
  nextSlot := h'.nextSlot.trans h.nextSlot

theorem sameSlots_setNode (hn : n < nonLeafNodesPerPage) (v : Nat) : SameSlots page (page.setNode n v) where
  slots x hx := by
    have hne : x ≠ n := by omega
    exact update_of_ne hne v page.node
  isNew := rfl
  nextSlot := rfl

/-- Setting the ancestors right makes the page whole again. -/
theorem raise_whole (hn : n < nodesPerPage) (hpos : 0 < n)
    (h : MaxTree.StandsOff nonLeafNodesPerPage nodesPerPage (parentof n) page.node) :
    (raise page n).Whole := by
  fun_induction raise page n with
  | case1 page n hstop =>
    rw [newvalue_eq (by simp only [leftchild, parentof]; omega)] at hstop
    exact h.close hstop
  | case2 page n hgo hroot =>
    rw [hroot] at h ⊢
    exact h.root
  | case3 page n hgo hroot ih =>
    have hlt : parentof n < nodesPerPage := by simp only [parentof]; omega
    apply ih hlt (Nat.pos_of_ne_zero hroot)
    rw [newvalue_eq (by simp only [leftchild, parentof]; omega)]
    exact h.up (Nat.pos_of_ne_zero hroot)

theorem raise_slots {n : Nat} (hn : n < nodesPerPage) : SameSlots page (raise page n) := by
  have hlt : parentof n < nonLeafNodesPerPage := by
    simp only [parentof, nodesPerPage_eq, nonLeafNodesPerPage_eq] at hn ⊢
    omega
  fun_induction raise page n with
  | case1 page => exact SameSlots.refl page
  | case2 => exact sameSlots_setNode hlt _
  | case3 page n hgo hroot ih =>
    have hsub : parentof n < nodesPerPage := by simp only [parentof]; omega
    have hup : parentof (parentof n) < nonLeafNodesPerPage := by
      simp only [parentof] at hlt ⊢
      omega
    exact (sameSlots_setNode hlt _).trans (ih hsub hup)

theorem rebuildFrom_spec (n : Nat) (changed : Bool) (page) (hn : n ≤ nonLeafNodesPerPage)
    (h : MaxTree.StandsFrom nonLeafNodesPerPage nodesPerPage n page.node) :
    (rebuildFrom n changed page).2.Whole ∧ SameSlots page (rebuildFrom n changed page).2 := by
  induction n generalizing changed page with
  | zero => exact ⟨fun x hx => h x (Nat.zero_le x) hx, SameSlots.refl page⟩
  | succ n ih =>
    have hdown := h.down
    rw [rebuildFrom]
    split_ifs with heq
    · rw [← rebuilt_eq, ← heq, update_eq_self] at hdown
      exact ih changed page (by omega) hdown
    · rw [← rebuilt_eq] at hdown
      have hrest := ih true (page.setNode n (rebuilt page n)) (by omega) hdown
      exact ⟨hrest.1, (sameSlots_setNode (by omega) _).trans hrest.2⟩

/-- A page is whole once it is rebuilt, and keeps its slots. -/
theorem fsmRebuildPage_spec (page) : (fsmRebuildPage page).2.Whole ∧ SameSlots page (fsmRebuildPage page).2 :=
  rebuildFrom_spec _ false page (le_rfl) (fun x hx hlt => by omega)

/-! ### The functions on a whole page -/

theorem fsmGetAvail_of_sameSlots (h : SameSlots p q) : fsmGetAvail q = fsmGetAvail p := by
  funext s
  exact h.slots _ (Nat.le_add_right _ _)

/-- No slot has more than the root says. -/
theorem FsmPage.Whole.le_max (h : page.Whole) (hslot : slot < slotsPerFsmPage) :
    fsmGetAvail page slot ≤ fsmGetMaxAvail page := by
  apply MaxTree.Stands.le_root h
  · decide
  · simp only [nodesPerPage_eq, nonLeafNodesPerPage_eq, slotsPerFsmPage_eq] at hslot ⊢
    omega

theorem zero_whole : FsmPage.zero.Whole := by
  intro x hx
  simp [FsmPage.zero, MaxTree.childMax]

theorem init_whole : page.init.Whole := by
  intro x hx
  simp [FsmPage.init, MaxTree.childMax]

/-- What a page function leaves of a page: a whole page with the slots `slots`. -/
structure Leaves (page page' : FsmPage) (slots : Nat → Nat) : Prop where
  whole : page'.Whole
  slots : fsmGetAvail page' = slots
  isNew : page'.isNew = page.isNew

/-- The hint where the next search starts is not a leaf. -/
theorem setNextSlot_leaves (h : page.Whole) (value : Int) :
    Leaves page (page.setNextSlot value) (fsmGetAvail page) := ⟨h, rfl, rfl⟩

theorem leaf_node (slot v : Nat) :
    fsmGetAvail (page.setNode (nonLeafNodesPerPage + slot) v) = update (fsmGetAvail page) slot v := by
  funext s
  simp only [fsmGetAvail, setNode_node]
  obtain rfl | hs := eq_or_ne s slot
  · rw [update_self, update_self]
  · rw [update_of_ne hs, update_of_ne (by omega)]
    rfl

theorem leaf_lt (hslot : slot < slotsPerFsmPage) : nonLeafNodesPerPage + slot < nodesPerPage := by
  simp only [nodesPerPage_eq, nonLeafNodesPerPage_eq, slotsPerFsmPage_eq] at hslot ⊢
  omega

/-- `fsmSetAvail` sets the slot, and only it, on a torn page too. -/
theorem fsmSetAvail_slots (page) (hslot : slot < slotsPerFsmPage) (value : Nat) :
    fsmGetAvail (fsmSetAvail page slot value).2 = update (fsmGetAvail page) slot value := by
  have hslots := @raise_slots (page.setNode (nonLeafNodesPerPage + slot) value) _ (leaf_lt hslot)
  have hput := (fsmGetAvail_of_sameSlots hslots).trans (leaf_node slot value)
  simp only [fsmSetAvail]
  split_ifs with hsame
  · rw [← hsame.1]
    exact (update_eq_self slot (fsmGetAvail page)).symm
  · exact (fsmGetAvail_of_sameSlots (fsmRebuildPage_spec _).2).trans hput
  · exact hput

theorem fsmSetAvail_leaves (h : page.Whole) (hslot : slot < slotsPerFsmPage) (value : Nat) :
    Leaves page (fsmSetAvail page slot value).2 (update (fsmGetAvail page) slot value) := by
  have hnode := leaf_lt hslot
  have hslots := @raise_slots (page.setNode (nonLeafNodesPerPage + slot) value) _ hnode
  refine ⟨?_, fsmSetAvail_slots page hslot value, ?_⟩
  · have hoff := MaxTree.Stands.put_leaf h (Nat.le_add_right nonLeafNodesPerPage slot) value
    simp only [fsmSetAvail]
    split_ifs
    · exact h
    · exact (fsmRebuildPage_spec _).1
    · exact raise_whole hnode (by simp only [nonLeafNodesPerPage_eq]; omega) hoff
  · simp only [fsmSetAvail]
    split_ifs
    · rfl
    · exact (fsmRebuildPage_spec _).2.isNew.trans hslots.isNew
    · exact hslots.isNew

theorem target_range (page) : nonLeafNodesPerPage ≤ target page ∧ target page < nodesPerPage := by
  rw [target]
  split_ifs with h
  · simp only [nodesPerPage_eq, nonLeafNodesPerPage_eq, leafNodesPerPage_eq] at h ⊢
    omega
  · exact ⟨le_rfl, by decide⟩

/-- The climb ends at a node that has enough, where the root does. -/
theorem climb_enough (minvalue n : Nat) (hroot : minvalue ≤ page.node 0) :
    minvalue ≤ page.node (climb page minvalue n) ∧ climb page minvalue n ≤ n := by
  fun_induction climb page minvalue n with
  | case1 n hpos henough => exact ⟨henough, Nat.le_refl n⟩
  | case2 n hpos hless ih =>
    have hle : parentof (rightneighbor n) ≤ n := by
      simp only [parentof, rightneighbor]
      split
      · omega
      · omega
    exact ⟨ih.1, ih.2.trans hle⟩
  | case3 n hzero =>
    have hn : n = 0 := by omega
    subst hn
    exact ⟨hroot, Nat.le_refl 0⟩

/-- A node of the last row, with enough. -/
def Fitting (page : FsmPage) (minvalue leaf : Nat) : Prop :=
  nonLeafNodesPerPage ≤ leaf ∧ leaf < nodesPerPage ∧ minvalue ≤ page.node leaf

/-- A leaf that the descent from a node with enough ends at has enough. -/
theorem fitting_of_descend (hn : n < nodesPerPage) (henough : minvalue ≤ page.node n)
    (h : descend page minvalue n = some leaf) : Fitting page minvalue leaf := by
  fun_induction descend page minvalue n with
  | case1 n hinner hleft ih => exact ih hleft.1 hleft.2 h
  | case2 n hinner hleft hright ih => exact ih hright.1 hright.2 h
  | case3 => cases h
  | case4 n hleaf =>
    cases h
    exact ⟨Nat.le_of_not_lt hleaf, hn, henough⟩

/-- On a whole page the descent from a node that has enough ends at a leaf that has. -/
theorem descend_fitting (h : page.Whole) (hmin : 0 < minvalue) (n : Nat) (hn : n < nodesPerPage)
    (henough : minvalue ≤ page.node n) :
    ∃ leaf, descend page minvalue n = some leaf ∧ Fitting page minvalue leaf := by
  fun_induction descend page minvalue n with
  | case1 n hinner hleft ih => exact ih hleft.1 hleft.2
  | case2 n hinner hleft hright ih => exact ih hright.1 hright.2
  | case3 n hinner hleft hright => exact ((MaxTree.Stands.below h hinner hmin henough).elim hleft hright).elim
  | case4 n hleaf => exact ⟨n, rfl, by omega, hn, henough⟩

/-- One round of the search suffices on a whole page. -/
theorem searched_fitting (h : page.Whole) (hroot : minvalue ≤ page.node 0) :
    ∃ leaf, searched page minvalue = some leaf ∧ Fitting page minvalue leaf := by
  have htarget := target_range page
  by_cases hmin : 0 < minvalue
  · have hclimb := climb_enough minvalue (target page) hroot
    exact descend_fitting h hmin _ (by omega) hclimb.1
  · have hzero : minvalue = 0 := by omega
    subst hzero
    have hpos : 0 < target page := by
      simp only [nonLeafNodesPerPage_eq] at htarget
      omega
    rw [searched, climb, dif_pos hpos, if_pos (Nat.zero_le _), descend, dif_neg (by omega)]
    exact ⟨target page, rfl, htarget.1, htarget.2, Nat.zero_le _⟩

/-- Whether a search of the page runs into a torn part. -/
def torn (page : FsmPage) (minvalue : Nat) : Bool :=
  decide (minvalue ≤ page.node 0) && (searched page minvalue).isNone

theorem FsmPage.Whole.not_torn (h : page.Whole) (minvalue : Nat) : torn page minvalue = false := by
  by_cases hroot : minvalue ≤ page.node 0
  · obtain ⟨leaf, hleaf, -⟩ := searched_fitting h hroot
    simp [torn, hleaf]
  · simp [torn, hroot]

/-- `fsm_search_avail`: a slot with at least `minvalue`, or none where the root says that there is
none. A page found torn is rebuilt and searched again; the hint is moved to the slot that was found,
or behind it. -/
def fsmSearchAvail (page : FsmPage) (minvalue : Nat) (advancenext : Bool) : Option Nat × FsmPage :=
  if _hroot : page.node 0 < minvalue then (none, page)
  else
    match _hleaf : searched page minvalue with
    | some nodeno =>
      let slot := nodeno - nonLeafNodesPerPage
      (some slot, page.setNextSlot (slot + if advancenext then 1 else 0))
    | none => fsmSearchAvail (fsmRebuildPage page).2 minvalue advancenext
termination_by (torn page minvalue).toNat
decreasing_by
  rw [(fsmRebuildPage_spec page).1.not_torn minvalue]
  have htorn : torn page minvalue = true := by
    rw [torn, _hleaf]
    simp only [Option.isNone_none, Bool.and_true, decide_eq_true_eq]
    omega
  rw [htorn]
  decide

/-- The search of a whole page: where it finds no slot the root has too little, and else the slot has
enough. Only the hint is moved. -/
theorem fsmSearchAvail_spec (h : page.Whole) (minvalue : Nat) (advancenext : Bool) :
    (fsmSearchAvail page minvalue advancenext).2.node = page.node ∧
      (fsmSearchAvail page minvalue advancenext).2.isNew = page.isNew ∧
      match (fsmSearchAvail page minvalue advancenext).1 with
      | none => fsmGetMaxAvail page < minvalue
      | some slot => slot < slotsPerFsmPage ∧ minvalue ≤ fsmGetAvail page slot := by
  rw [fsmSearchAvail]
  by_cases hroot : page.node 0 < minvalue
  · rw [dif_pos hroot]
    exact ⟨rfl, rfl, hroot⟩
  · rw [dif_neg hroot]
    obtain ⟨leaf, hleaf, hlow, hhigh, henough⟩ := searched_fitting h (Nat.le_of_not_lt hroot)
    split
    · rename_i nodeno hnode
      rw [hleaf] at hnode
      cases hnode
      refine ⟨rfl, rfl, ?_, ?_⟩
      · simp only [nodesPerPage_eq, nonLeafNodesPerPage_eq, slotsPerFsmPage_eq] at hlow hhigh ⊢
        omega
      · rw [fsmGetAvail, Nat.add_sub_cancel' hlow]
        exact henough
    · rename_i hnode
      rw [hleaf] at hnode
      cases hnode

/-- The first loop of `fsmTruncateAvail`: the slots from `nslots` on are cleared, `n` of them still to
come. -/
def clearFrom (nslots : Nat) : Nat → Bool → FsmPage → Bool × FsmPage
  | 0, changed, page => (changed, page)
  | n + 1, changed, page =>
    clearFrom (nslots + 1) n (changed || page.node (nonLeafNodesPerPage + nslots) != 0)
      (page.setNode (nonLeafNodesPerPage + nslots) 0)

/-- `fsm_truncate_avail`: the slots from `nslots` on are cleared; the answer says whether one held
something. -/
def fsmTruncateAvail (page : FsmPage) (nslots : Nat) : Bool × FsmPage :=
  let cleared := clearFrom nslots (leafNodesPerPage - nslots) false page
  if cleared.1 then (true, (fsmRebuildPage cleared.2).2) else cleared

theorem clearFrom_spec (nslots n : Nat) (changed : Bool) (page) :
    (fsmGetAvail (clearFrom nslots n changed page).2 = fun s =>
        if nslots ≤ s ∧ s < nslots + n then 0 else fsmGetAvail page s) ∧
      (clearFrom nslots n changed page).2.isNew = page.isNew ∧
      ((clearFrom nslots n changed page).1 = false → (clearFrom nslots n changed page).2.node = page.node) ∧
      (changed = true → (clearFrom nslots n changed page).1 = true) := by
  induction n generalizing nslots changed page with
  | zero =>
    refine ⟨?_, rfl, fun _ => rfl, id⟩
    funext s
    rw [if_neg (by omega)]
    rfl
  | succ n ih =>
    rw [clearFrom]
    obtain ⟨hslots, hnew, hnone, hch⟩ := ih (nslots + 1) (changed || page.node (nonLeafNodesPerPage + nslots) != 0)
      (page.setNode (nonLeafNodesPerPage + nslots) 0)
    refine ⟨?_, hnew, ?_, ?_⟩
    · rw [hslots]
      funext s
      rw [leaf_node, update_apply]
      split_ifs
      all_goals first | rfl | omega
    · intro hfalse
      have hzero : page.node (nonLeafNodesPerPage + nslots) = 0 := by
        by_contra hne
        have htrue := hch (by simp [hne])
        rw [hfalse] at htrue
        cases htrue
      rw [hnone hfalse, ← hzero]
      exact update_eq_self _ _
    · intro htrue
      exact hch (by simp [htrue])

/-- `fsmTruncateAvail` clears the slots from `nslots` on, and only them. -/
theorem fsmTruncateAvail_leaves (h : page.Whole) (nslots : Nat) : Leaves page (fsmTruncateAvail page nslots).2
      (fun s => if nslots ≤ s ∧ s < nslots + (leafNodesPerPage - nslots) then 0 else fsmGetAvail page s) := by
  obtain ⟨hslots, hnew, hnone, -⟩ := clearFrom_spec nslots (leafNodesPerPage - nslots) false page
  rw [fsmTruncateAvail]
  generalize clearFrom nslots (leafNodesPerPage - nslots) false page = cleared at hslots hnew hnone
  cases hcase : cleared.1 with
  | true =>
    have hre := fsmRebuildPage_spec cleared.2
    exact ⟨hre.1, (fsmGetAvail_of_sameSlots hre.2).trans hslots, hre.2.isNew.trans hnew⟩
  | false =>
    simp only [Bool.false_eq_true, if_false]
    refine ⟨?_, hslots, hnew⟩
    rw [FsmPage.Whole, hnone hcase]
    exact h

/-- The search of any page: a slot that it finds has enough, and it finds none only where the root of the
page, rebuilt if it was found torn, has too little. -/
theorem fsmSearchAvail_sound (page) (minvalue : Nat) (advancenext : Bool) :
    (∀ slot, (fsmSearchAvail page minvalue advancenext).1 = some slot →
      slot < slotsPerFsmPage ∧ minvalue ≤ fsmGetAvail page slot) ∧
    ((fsmSearchAvail page minvalue advancenext).1 = none →
      fsmGetMaxAvail (fsmSearchAvail page minvalue advancenext).2 < minvalue) := by
  fun_induction fsmSearchAvail page minvalue advancenext with
  | case1 page hroot => exact ⟨nofun, fun _ => hroot⟩
  | case2 page hroot leaf hleaf =>
    refine ⟨fun slot hslot => ?_, nofun⟩
    rw [← Option.some.inj hslot]
    have htarget := target_range page
    have hclimb := climb_enough minvalue (target page) (Nat.le_of_not_lt hroot)
    obtain ⟨hlow, hhigh, henough⟩ := fitting_of_descend (by omega) hclimb.1 hleaf
    have hlt : leaf - nonLeafNodesPerPage < slotsPerFsmPage := by
      simp only [nodesPerPage_eq, nonLeafNodesPerPage_eq, slotsPerFsmPage_eq] at hlow hhigh ⊢
      omega
    rw [fsmGetAvail, Nat.add_sub_cancel' hlow]
    exact ⟨hlt, henough⟩
  | case3 page hroot htorn ih =>
    rw [fsmGetAvail_of_sameSlots (fsmRebuildPage_spec page).2] at ih
    exact ih

/-- What the functions of a page do on any page, torn or not, and on a whole one. That the search ends is
in its definition: a rebuilt page is not torn. -/
theorem fsm_page_functions (page : FsmPage) (minvalue : Nat) (advancenext : Bool) :
    (∀ slot, (fsmSearchAvail page minvalue advancenext).1 = some slot →
      slot < slotsPerFsmPage ∧ minvalue ≤ fsmGetAvail page slot) ∧
    ((fsmSearchAvail page minvalue advancenext).1 = none →
      fsmGetMaxAvail (fsmSearchAvail page minvalue advancenext).2 < minvalue) ∧
    (page.Whole → ((∃ slot, (fsmSearchAvail page minvalue advancenext).1 = some slot) ↔
      ∃ slot, slot < slotsPerFsmPage ∧ minvalue ≤ fsmGetAvail page slot)) ∧
    (fsmRebuildPage page).2.Whole ∧
    (page.Whole → ∀ nslots, (fsmTruncateAvail page nslots).2.Whole) ∧
    (page.Whole → ∀ slot value, slot < slotsPerFsmPage → (fsmSetAvail page slot value).2.Whole) ∧
    ∀ slot value, slot < slotsPerFsmPage →
      fsmGetAvail (fsmSetAvail page slot value).2 = update (fsmGetAvail page) slot value := by
  obtain ⟨hfound, hnone⟩ := fsmSearchAvail_sound page minvalue advancenext
  refine ⟨hfound, hnone, fun h => ⟨?_, ?_⟩, (fsmRebuildPage_spec page).1,
    fun h nslots => (fsmTruncateAvail_leaves h nslots).whole,
    fun h slot value hslot => (fsmSetAvail_leaves h hslot value).whole,
    fun slot value hslot => fsmSetAvail_slots page hslot value⟩
  · rintro ⟨slot, hslot⟩
    exact ⟨slot, hfound slot hslot⟩
  · rintro ⟨slot, hslot, henough⟩
    cases hcase : (fsmSearchAvail page minvalue advancenext).1 with
    | some found => exact ⟨found, rfl⟩
    | none =>
      -- the root bounds the slot, and the search leaves the nodes of a whole page alone
      have hmax := hnone hcase
      rw [fsmGetMaxAvail, (fsmSearchAvail_spec h minvalue advancenext).1] at hmax
      exact absurd (henough.trans (h.le_max hslot)) (Nat.not_le.mpr hmax)

end FreeSpacePage
