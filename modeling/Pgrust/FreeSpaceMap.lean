import Mathlib.Algebra.Group.Int.Defs
import Pgrust.FreeSpacePage

/-!
The free space map of a relation: a tree of pages three levels deep, in which a slot of a page
above the bottom holds the largest category of the page below it, and a slot of a bottom page holds
the category of one block of the relation. The upper levels are hints: recording space changes the
bottom level alone, a search corrects what it finds stale, and vacuuming sets all of it right.
-/
namespace FreeSpaceMap

open FreeSpacePage

def fsmCatStep : Nat := blcksz / 256

def maxFsmRequestSize : Nat := 8160

def invalidBlockNumber : Nat := 2 ^ 32 - 1

/-- `fsm_space_avail_to_cat`: rounds down. -/
def fsmSpaceAvailToCat (avail : Nat) : Nat :=
  if maxFsmRequestSize ≤ avail then 255
  else if 254 < avail / fsmCatStep then 254 else avail / fsmCatStep

/-- `fsm_space_needed_to_cat`: rounds up, and asks for something where nothing is needed. -/
def fsmSpaceNeededToCat (needed : Nat) : Except String Nat :=
  if maxFsmRequestSize < needed then .error s!"invalid FSM request size {needed}"
  else if needed = 0 then .ok 1
  else
    let cat := (needed + fsmCatStep - 1) / fsmCatStep
    if 255 < cat then .ok 255 else .ok cat

/-! ### Addresses -/

structure FSMAddress where
  level : Nat
  logpageno : Nat
  deriving DecidableEq

def fsmTreeDepth : Nat := 3

def fsmRootLevel : Nat := fsmTreeDepth - 1

def fsmBottomLevel : Nat := 0

def fsmRootAddress : FSMAddress := ⟨fsmRootLevel, 0⟩

def wrapI32 (x : Int) : Int := Int.bmod x (2 ^ 32)

def asU32 (x : Int) : Nat := (x % 2 ^ 32).toNat

/-- The number of the first bottom page below a page. -/
def leafnoOf : Nat → Int → Int
  | 0, leafno => leafno
  | level + 1, leafno => leafnoOf level (wrapI32 (leafno * slotsPerFsmPage))

/-- The pages on the way to a bottom page, level by level. -/
def countPages : Nat → Int → Nat → Nat
  | 0, _, pages => pages
  | depth + 1, leafno, pages =>
    countPages depth (leafno.tdiv slotsPerFsmPage) ((pages + asU32 (wrapI32 (leafno + 1))) % 2 ^ 32)

/-- `fsm_logical_to_physical`: the block of the map in which a page lies. -/
def fsmLogicalToPhysical (addr : FSMAddress) : Nat :=
  let pages := countPages fsmTreeDepth (leafnoOf addr.level addr.logpageno) 0
  ((pages + 2 ^ 32 - addr.level) % 2 ^ 32 + 2 ^ 32 - 1) % 2 ^ 32

def fsmGetLocation (heapblk : Nat) : FSMAddress × Nat :=
  (⟨fsmBottomLevel, heapblk / slotsPerFsmPage⟩, heapblk % slotsPerFsmPage)

def fsmGetHeapBlk (addr : FSMAddress) (slot : Nat) : Nat :=
  (addr.logpageno * slotsPerFsmPage % 2 ^ 32 + slot) % 2 ^ 32

def fsmGetParent (child : FSMAddress) : FSMAddress × Nat :=
  (⟨child.level + 1, child.logpageno / slotsPerFsmPage⟩, child.logpageno % slotsPerFsmPage)

def fsmGetChild (parent : FSMAddress) (slot : Nat) : FSMAddress :=
  ⟨parent.level - 1, parent.logpageno * slotsPerFsmPage + slot⟩

/-! ### The relation -/

/-- The two forks of the relation that matter here, each with the size that the storage manager has
cached. A cached size is what it was when it was noted. -/
structure Rel where
  mainBlocks : Nat
  mainCached : Option Nat
  fsmExists : Bool
  fsmBlocks : Nat
  fsmCached : Option Nat
  page : Nat → FsmPage

def Rel.setPage (r : Rel) (blk : Nat) (page : FsmPage) : Rel := { r with page := Function.update r.page blk page }

/-- The size of the map's fork: the cached one where it reaches the block, and else that of the
file. -/
def Rel.fsmSize (r : Rel) (blkno : Nat) : Nat × Rel :=
  let fresh :=
    if r.fsmExists then (r.fsmBlocks, { r with fsmCached := some r.fsmBlocks })
    else (0, { r with fsmCached := some 0 })
  match r.fsmCached with
  | some n => if blkno < n then (n, r) else fresh
  | none => fresh

/-- `fsm_extend`: pages of zeros up to the size. -/
def fsmExtend (r : Rel) (fsmNblocks : Nat) : Rel :=
  { r with
    fsmExists := true
    fsmBlocks := max r.fsmBlocks fsmNblocks
    fsmCached := some (max r.fsmBlocks fsmNblocks)
    page := fun blk => if r.fsmBlocks ≤ blk ∧ blk < fsmNblocks then .zero else r.page blk }

/-- A page that was never written is initialised when it is read. -/
def Rel.initNew (r : Rel) (blk : Nat) : Rel := if (r.page blk).isNew then r.setPage blk (r.page blk).init else r

/-- `fsm_readbuf`: the block that holds the page, if the map reaches so far or is to be extended. -/
def fsmReadbuf (r : Rel) (addr : FSMAddress) (extend : Bool) : Option Nat × Rel :=
  let blkno := fsmLogicalToPhysical addr
  let size := r.fsmSize blkno
  if size.1 ≤ blkno then
    if extend then (some blkno, (fsmExtend size.2 (blkno + 1)).initNew blkno)
    else (none, size.2)
  else (some blkno, size.2.initNew blkno)

/-- `fsm_set_and_search`: sets a slot, and where `minValue` is not zero searches the page. -/
def fsmSetAndSearch (r : Rel) (addr : FSMAddress) (slot newValue minValue : Nat) : Option Nat × Rel :=
  match fsmReadbuf r addr true with
  | (none, r) => (none, r)
  | (some blk, r) =>
    let page := (fsmSetAvail (r.page blk) slot newValue).2
    if minValue = 0 then (none, r.setPage blk page)
    else
      let found := fsmSearchAvail page minValue (addr.level == fsmBottomLevel)
      (found.1, r.setPage blk found.2)

/-- `fsm_does_block_exist`: the cached size of the relation is believed where it covers the block. -/
def fsmDoesBlockExist (r : Rel) (blknumber : Nat) : Bool × Rel :=
  let fresh := (decide (blknumber < r.mainBlocks), { r with mainCached := some r.mainBlocks })
  match r.mainCached with
  | some cached => if blknumber < cached then (true, r) else fresh
  | none => fresh

/-! ### The search -/

/-- What a round of `fsmSearch` ends with. -/
inductive Round where
  | done (blk : Nat) (r : Rel)
  | go (addr : FSMAddress) (restarts : Nat) (r : Rel)

/-- A page without a slot: at the root there is no such block, and elsewhere the slot above the page
is stale. It is set right and the search restarts. -/
def noSlot (r : Rel) (addr : FSMAddress) (maxAvail restarts : Nat) : Round :=
  if addr.level = fsmRootLevel then .done invalidBlockNumber r
  else
    let parent := fsmGetParent addr
    let r := (fsmSetAndSearch r parent.1 parent.2 maxAvail 0).2
    if 10000 < restarts then .done invalidBlockNumber r
    else .go fsmRootAddress (restarts + 1) r

/-- A slot of a bottom page: the block it stands for is the answer, unless it lies past the end of the
relation. Then the slot is cleared and the search restarts, at the child of the root that has the
slot's number. -/
def bottomSlot (r : Rel) (addr : FSMAddress) (blk slot restarts : Nat) : Round :=
  let blkno := fsmGetHeapBlk addr slot
  let exist := fsmDoesBlockExist r blkno
  if exist.1 then .done blkno exist.2
  else
    let r := exist.2.setPage blk (fsmSetAvail (exist.2.page blk) slot 0).2
    if 10000 < restarts then .done invalidBlockNumber r
    else .go (fsmGetChild fsmRootAddress slot) (restarts + 1) r

/-- One round of the loop of `fsm_search`. -/
def round (r : Rel) (minCat : Nat) (addr : FSMAddress) (restarts : Nat) : Round :=
  match fsmReadbuf r addr false with
  | (none, r) => noSlot r addr 0 restarts
  | (some blk, r) =>
    let found := fsmSearchAvail (r.page blk) minCat (addr.level == fsmBottomLevel)
    let r := r.setPage blk found.2
    match found.1 with
    | none => noSlot r addr (fsmGetMaxAvail found.2) restarts
    | some slot =>
      if addr.level = fsmBottomLevel then bottomSlot r addr blk slot restarts
      else .go (fsmGetChild addr slot) restarts r

theorem noSlot_go (h : noSlot r addr maxAvail restarts = .go addr' restarts' r') :
    restarts ≤ 10000 ∧ restarts' = restarts + 1 := by
  simp only [noSlot] at h
  split_ifs at h with hroot hmany
  cases h
  exact ⟨Nat.le_of_not_lt hmany, rfl⟩

/-- A round goes on with a restart, or one level down. -/
theorem round_go (h : round r minCat addr restarts = .go addr' restarts' r') :
    (restarts ≤ 10000 ∧ restarts' = restarts + 1) ∨ (restarts' = restarts ∧ addr'.level < addr.level) := by
  rw [round] at h
  split at h
  · exact .inl (noSlot_go h)
  · simp only at h
    split at h
    · exact .inl (noSlot_go h)
    · split_ifs at h with hbottom
      · simp only [bottomSlot] at h
        split_ifs at h with hexist hmany
        cases h
        exact .inl ⟨Nat.le_of_not_lt hmany, rfl⟩
      · cases h
        refine .inr ⟨rfl, ?_⟩
        simp only [fsmGetChild, fsmBottomLevel] at hbottom ⊢
        omega

/-- `fsm_search`, from a page on: the block, and the restarts that were made. -/
def fsmSearchFrom (r : Rel) (minCat : Nat) (addr : FSMAddress) (restarts : Nat) : (Nat × Nat) × Rel :=
  match _h : round r minCat addr restarts with
  | .done blk r => ((blk, restarts), r)
  | .go addr restarts r => fsmSearchFrom r minCat addr restarts
termination_by (10001 - restarts, addr.level)
decreasing_by
  cases round_go _h with
  | inl hrestart =>
    rw [hrestart.2]
    exact Prod.Lex.left _ _ (by omega)
  | inr hdown =>
    rw [hdown.1]
    exact Prod.Lex.right _ hdown.2

def fsmSearch (r : Rel) (minCat : Nat) : (Nat × Nat) × Rel := fsmSearchFrom r minCat fsmRootAddress 0

/-! ### Vacuuming -/

/-- The place of a block `level` levels up. -/
def upTo : Nat → FSMAddress × Nat → FSMAddress × Nat
  | 0, loc => loc
  | level + 1, loc => upTo level (fsmGetParent loc.1)

/-- The first slot of the page to visit, for the blocks from `start` on. -/
def startSlot (addr : FSMAddress) (start : Nat) : Nat :=
  let loc := upTo addr.level (fsmGetLocation start)
  if loc.1.logpageno = addr.logpageno then loc.2
  else if addr.logpageno < loc.1.logpageno then slotsPerFsmPage else 0

/-- The slot behind the last one to visit, for the blocks before `stop`. -/
def endSlot (addr : FSMAddress) (stop : Nat) : Nat :=
  let loc := upTo addr.level (fsmGetLocation (stop - 1))
  if loc.1.logpageno = addr.logpageno then loc.2 + 1
  else if addr.logpageno < loc.1.logpageno then slotsPerFsmPage else 0

/-- One slot of a page above the bottom: it gets what the page below it says, or zero where a page
before that one was already past the end of the map. -/
def vacuumSlot (child : Nat → Rel → (Nat × Bool) × Rel) (blk : Nat) (state : Bool × Rel)
    (slot : Nat) : Bool × Rel :=
  let below := if state.1 then ((0, true), state.2) else child slot state.2
  let r := below.2
  if fsmGetAvail (r.page blk) slot = below.1.1 then (below.1.2, r)
  else (below.1.2, r.setPage blk (fsmSetAvail (r.page blk) slot below.1.1).2)

/-- The end of `fsm_vacuum_page`: the largest category of the page, with the hint set back. -/
def vacuumed (r : Rel) (blk : Nat) : (Nat × Bool) × Rel :=
  ((fsmGetMaxAvail (r.page blk), false), r.setPage blk ((r.page blk).setNextSlot 0))

/-- `fsm_vacuum_page`: the largest category of the page once the slots for the blocks from `start` to
before `stop` are set right, and whether the page is past the end of the map. -/
def fsmVacuumPage (start stop : Nat) : Nat → Nat → Rel → (Nat × Bool) × Rel
  | 0, logpageno, r =>
    match fsmReadbuf r ⟨0, logpageno⟩ false with
    | (none, r) => ((0, true), r)
    | (some blk, r) => vacuumed r blk
  | level + 1, logpageno, r =>
    match fsmReadbuf r ⟨level + 1, logpageno⟩ false with
    | (none, r) => ((0, true), r)
    | (some blk, r) =>
      let first := startSlot ⟨level + 1, logpageno⟩ start
      let slots := List.range' first (endSlot ⟨level + 1, logpageno⟩ stop - first)
      let child slot := fsmVacuumPage start stop level (logpageno * slotsPerFsmPage + slot)
      vacuumed (slots.foldl (vacuumSlot child blk) (false, r)).2 blk

def freeSpaceMapVacuumRange (r : Rel) (start stop : Nat) : Rel :=
  if start < stop then (fsmVacuumPage start stop fsmRootLevel 0 r).2 else r

def freeSpaceMapVacuum (r : Rel) : Rel := (fsmVacuumPage 0 invalidBlockNumber fsmRootLevel 0 r).2

/-! ### The calls -/

/-- The answer stands beside the restarts that the search made. -/
def getPageWithFreeSpace (r : Rel) (spaceNeeded : Nat) : Except String ((Nat × Nat) × Rel) := do
  let minCat ← fsmSpaceNeededToCat spaceNeeded
  return fsmSearch r minCat

/-- The page is searched first for a block near the old one. -/
def recordAndGetPageWithFreeSpace (r : Rel) (oldPage oldSpaceAvail spaceNeeded : Nat) :
    Except String ((Nat × Nat) × Rel) := do
  let oldCat := fsmSpaceAvailToCat oldSpaceAvail
  let searchCat ← fsmSpaceNeededToCat spaceNeeded
  let loc := fsmGetLocation oldPage
  let near := fsmSetAndSearch r loc.1 loc.2 oldCat searchCat
  match near.1 with
  | none => return fsmSearch near.2 searchCat
  | some slot =>
    let blknum := fsmGetHeapBlk loc.1 slot
    let exist := fsmDoesBlockExist near.2 blknum
    if exist.1 then return ((blknum, 0), exist.2) else return fsmSearch exist.2 searchCat

def recordPageWithFreeSpace (r : Rel) (heapBlk spaceAvail : Nat) : Rel :=
  let loc := fsmGetLocation heapBlk
  (fsmSetAndSearch r loc.1 loc.2 (fsmSpaceAvailToCat spaceAvail) 0).2

/-- `GetRecordedFreeSpace`, as far as the category: what the map has for a block. -/
def recordedCat (r : Rel) (heapBlk : Nat) : Nat × Rel :=
  let loc := fsmGetLocation heapBlk
  match fsmReadbuf r loc.1 false with
  | (none, r) => (0, r)
  | (some blk, r) => (fsmGetAvail (r.page blk) loc.2, r)

/-- The size the map is to be cut to when the relation is cut to `nblocks`, if that changes
anything. -/
def freeSpaceMapPrepareTruncateRel (r : Rel) (nblocks : Nat) : Option Nat × Rel :=
  if r.fsmExists then
    let loc := fsmGetLocation nblocks
    if 0 < loc.2 then
      match fsmReadbuf r loc.1 false with
      | (none, r) => (none, r)
      | (some blk, r) =>
        (some (fsmLogicalToPhysical loc.1 + 1), r.setPage blk (fsmTruncateAvail (r.page blk) loc.2).2)
    else
      let newNfsmblocks := fsmLogicalToPhysical loc.1
      let r := { r with fsmCached := some r.fsmBlocks }
      if r.fsmBlocks ≤ newNfsmblocks then (none, r) else (some newNfsmblocks, r)
  else (none, r)

end FreeSpaceMap
