import Pgrust.MultiXactPages

/-!
Backends that create multixacts and read their members. A step is one section under
`MultiXactGenLock`, one section under the lock of an offsets page, or one member slot. The length of
a multixact is not stored: it ends where the next one begins.
-/
namespace MultiXact

open XidOrder Heap

def firstMultiXactId : MultiXactId := 1

def multiXactIdPrecedes (multi1 multi2 : MultiXactId) : Bool := decide (asI32 (multi1 - multi2) < 0)

/-- The id after an id: zero is no id. -/
def nextMultiXactId (multi : MultiXactId) : MultiXactId :=
  if multi + 1 < firstMultiXactId then firstMultiXactId else multi + 1

/-- Where the next multixact begins, slot zero being no beginning. -/
def nextMemberOffset (offset : MultiXactOffset) (nmembers : Nat) : MultiXactOffset :=
  if offset + UInt32.ofNat nmembers = 0 then 1 else offset + UInt32.ofNat nmembers

def extendMultiXactOffset (offsets : Pages) (multi : MultiXactId) : Pages :=
  if multiXactIdToOffsetEntry multi ≠ 0 ∧ multi ≠ firstMultiXactId then offsets
  else offsets.zero (multiXactIdToOffsetPage multi)

def maxMembersInLastMembersPage : Nat := 0xFFFFFFFF % multixactMembersPerPage + 1

/-- The slots up to the end of the page; the last page ends early. -/
def memberDifference (offset : MultiXactOffset) : Nat :=
  if offset + UInt32.ofNat maxMembersInLastMembersPage < offset then 0xFFFFFFFF - offset.toNat + 1
  else multixactMembersPerPage - offset.toNat % multixactMembersPerPage

/-- The loop of `ExtendMultiXactMember`. A page has at least one slot left, so `nmembers` rounds are
enough. -/
def extendMultiXactMemberLoop : Nat → Pages → MultiXactOffset → Nat → Pages
  | 0, pages, _, _ => pages
  | fuel + 1, pages, offset, nmembers =>
    if nmembers = 0 then pages
    else
      extendMultiXactMemberLoop fuel (if mxOffsetToFlagsOffset offset = 0 ∧ mxOffsetToFlagsBitShift offset = 0 then
          pages.zero (mxOffsetToMemberPage offset)
        else pages)
        (offset + UInt32.ofNat (memberDifference offset)) (nmembers - memberDifference offset)

def extendMultiXactMember (pages : Pages) (offset : MultiXactOffset) (nmembers : Nat) : Pages :=
  extendMultiXactMemberLoop nmembers pages offset nmembers

def multiXactOffsetWouldWrap (boundary start distance : UInt32) : Bool :=
  let finish := if start + distance < start then start + distance + 1 else start + distance
  if start < boundary then decide (boundary ≤ finish) || decide (finish < start)
  else decide (boundary ≤ finish) && decide (finish < start)

/-- The limits that others set. -/
structure Limits where
  multiVacLimit : MultiXactId
  multiStopLimit : MultiXactId
  isUnderPostmaster : Bool
  oldestOffsetKnown : Bool
  offsetStopLimit : MultiXactOffset

structure Counters where
  nextMXact : MultiXactId
  nextOffset : MultiXactOffset
  oldestMultiXactId : MultiXactId

structure Shared where
  counters : Counters
  limits : Limits
  offsets : Pages
  members : Pages

/-- How a section of `GetNewMultiXactId` ends. -/
inductive Outcome
  | warn (stop : Bool)
  | refused
  | allocated (multi : MultiXactId) (offset : MultiXactOffset)

/-- The number of slots to reserve: slot zero is left out. -/
def slotsFor (nextOffset : MultiXactOffset) (nmembers : Nat) : Nat :=
  if nextOffset = 0 then nmembers + 1 else nmembers

/-- The second half of `GetNewMultiXactId`. -/
def allocate (s : Shared) (result : MultiXactId) (nmembersIn : Nat) : Shared × Outcome :=
  let offsets := extendMultiXactOffset s.offsets (result + 1)
  let nextOffset := s.counters.nextOffset
  let nmembers := slotsFor nextOffset nmembersIn
  if s.limits.oldestOffsetKnown &&
      multiXactOffsetWouldWrap s.limits.offsetStopLimit nextOffset (UInt32.ofNat nmembers) then
    ({ s with offsets := offsets }, .refused)
  else
    ({ s with
        counters := { s.counters with
          nextMXact := s.counters.nextMXact + 1
          nextOffset := nextOffset + UInt32.ofNat nmembers }
        offsets := offsets
        members := extendMultiXactMember s.members nextOffset nmembers },
      .allocated result (if nextOffset = 0 then 1 else nextOffset))

/-- Zero is no id. -/
def fixId (multi : MultiXactId) : MultiXactId := if multi < firstMultiXactId then firstMultiXactId else multi

/-- `GetNewMultiXactId` up to where it releases `MultiXactGenLock`. -/
def getNewFirst (s : Shared) (nmembers : Nat) : Shared × Outcome :=
  let result := fixId s.counters.nextMXact
  let s := { s with counters := { s.counters with nextMXact := result } }
  if !multiXactIdPrecedes result s.limits.multiVacLimit then
    (s, .warn (s.limits.isUnderPostmaster && !multiXactIdPrecedes result s.limits.multiStopLimit))
  else allocate s result nmembers

/-- The first section ends without an allocation when both counters are zero. -/
def endsEarly (s : Shared) (nmembers : Nat) : Bool :=
  !multiXactIdPrecedes firstMultiXactId s.limits.multiVacLimit || (s.limits.oldestOffsetKnown &&
      multiXactOffsetWouldWrap s.limits.offsetStopLimit 0 (UInt32.ofNat (nmembers + 1)))

/-- And from where it has taken it again. -/
def getNewAgain (s : Shared) (nmembers : Nat) : Shared × Outcome := allocate s (fixId s.counters.nextMXact) nmembers

/-- `mxact_member_cmp`, as an order. -/
def memberLe (a b : MultiXactMember) : Bool :=
  decide (a.xid < b.xid) || (a.xid == b.xid && decide (mxstatusToWord a.status ≤ mxstatusToWord b.status))

/-- The order that the members are stored in. -/
def storedOrder (members : List MultiXactMember) : List MultiXactMember := members.mergeSort memberLe

inductive ReadError
  | noLongerExists
  | notCreatedYet
  | invalidNextOffset
  | invalidStatus

/-- Where a backend is. `record` numbers the multixacts by their allocation. -/
inductive Pc
  | idle
  | create (members : List MultiXactMember)
  | warned (members : List MultiXactMember) (stop : Bool)
  | refused
  -- `RecordNewMultiXact`
  | own (record : Nat) (multi : MultiXactId) (offset : MultiXactOffset) (members : List MultiXactMember)
  | next (record : Nat) (multi : MultiXactId) (offset : MultiXactOffset) (members : List MultiXactMember)
  | write (record : Nat) (multi : MultiXactId) (off : MultiXactOffset) (todo : List MultiXactMember)
  | returned (record : Nat) (multi : MultiXactId)
  -- `GetMultiXactIdMembers`
  | read (record : Nat) (multi : MultiXactId)
  | checked (record : Nat) (multi nextMXact : MultiXactId) (nextOffset : MultiXactOffset)
  | found (record : Nat) (multi nextMXact : MultiXactId) (nextOffset offset : MultiXactOffset)
  | scan (record : Nat) (multi : MultiXactId) (off : MultiXactOffset) (left : Nat) (out : List MultiXactMember)
  | answered (record : Nat) (multi : MultiXactId) (out : List MultiXactMember)
  | failed (record : Nat) (multi : MultiXactId) (error : ReadError)

/-- The multixact a backend is at. -/
def Pc.record : Pc → Option Nat
  | own k _ _ _ | next k _ _ _ | write k _ _ _ | returned k _ | read k _ | checked k _ _ _
  | found k _ _ _ _ | scan k _ _ _ _ | answered k _ _ | failed k _ _ => some k
  | _ => none

/-- A multixact in the history. `pos` counts member slots on over the wrap-around. -/
structure Rec where
  multi : MultiXactId
  offset : MultiXactOffset
  members : List MultiXactMember
  pos : Nat

/-- `first` and `oldestIndex` number the ids on over the wrap-around, as `nextPos` and `oldestPos` do
with the slots. -/
structure History where
  count : Nat
  log : Nat → Rec
  first : Nat
  oldestIndex : Nat
  nextPos : Nat
  oldestPos : Nat

/-- How far `RecordNewMultiXact` is with a multixact. -/
structure Progress where
  own : Bool
  next : Bool
  written : Nat
  done : Bool

structure State (ι : Type) where
  shared : Shared
  pc : ι → Pc
  history : History
  progress : Nat → Progress

/-- The ids go round without zero. -/
def idOf (index : Nat) : MultiXactId := UInt32.ofNat (index % (2 ^ 32 - 1) + 1)

/-- Slot zero is no beginning. -/
def beginning (pos : Nat) : Nat := if pos % 2 ^ 32 = 0 then pos + 1 else pos

variable {ι : Type} [DecidableEq ι]

def State.goto (s : State ι) (i : ι) (p : Pc) : State ι := { s with pc := Function.update s.pc i p }

def State.note (s : State ι) (record : Nat) (p : Progress) : State ι :=
  { s with progress := Function.update s.progress record p }

def State.setOffsets (s : State ι) (offsets : Pages) : State ι :=
  { s with shared := { s.shared with offsets := offsets } }

def State.setMembers (s : State ι) (members : Pages) : State ι :=
  { s with shared := { s.shared with members := members } }

/-- The history with a new multixact. -/
def History.add (h : History) (multi : MultiXactId) (offset : MultiXactOffset)
    (members : List MultiXactMember) : History :=
  { h with
    count := h.count + 1
    log := Function.update h.log h.count ⟨multi, offset, members, beginning h.nextPos⟩
    nextPos := beginning h.nextPos + members.length }

/-- A section of `GetNewMultiXactId` is over. -/
def State.afterSection (s : State ι) (i : ι) (members : List MultiXactMember) : Shared × Outcome → State ι
  | (shared, .warn stop) => State.goto { s with shared := shared } i (.warned members stop)
  | (shared, .refused) => State.goto { s with shared := shared } i .refused
  | (shared, .allocated multi offset) =>
    State.goto { s with
        shared := shared
        history := s.history.add multi offset members
        progress := Function.update s.progress s.history.count ⟨false, false, 0, false⟩ }
      i (.own s.history.count multi offset members)

/-- What is read under `MultiXactGenLock`. -/
def checkMulti (c : Counters) (record : Nat) (multi : MultiXactId) : Pc :=
  if multiXactIdPrecedes multi c.oldestMultiXactId then .failed record multi .noLongerExists
  else if !multiXactIdPrecedes multi c.nextMXact then .failed record multi .notCreatedYet
  else .checked record multi c.nextMXact c.nextOffset

/-- `length`, as a number of rounds. -/
def rounds (length : UInt32) : Nat := (asI32 length).toNat

/-- The end of a multixact is that of all, or the beginning of the next one. -/
def measure (offsets : Pages) (record : Nat) (multi nextMXact : MultiXactId)
    (nextOffset offset : MultiXactOffset) : Pc :=
  if nextMXact = multi + 1 then .scan record multi offset (rounds (nextOffset - offset)) []
  else if readOffsetEntry offsets (nextMultiXactId multi) = 0 then .failed record multi .invalidNextOffset
  else
    .scan record multi offset (rounds (readOffsetEntry offsets (nextMultiXactId multi) - offset)) []

/-- One slot: an invalid id is the unused slot zero. -/
def scanSlot (members : Pages) (record : Nat) (multi : MultiXactId) (off : MultiXactOffset) (left : Nat)
    (out : List MultiXactMember) : Pc :=
  if !transactionIdIsValid (readMemberXid members off) then .scan record multi (off + 1) left out
  else
    match mxstatusFromWord (readMemberFlags members off) with
    | none => .failed record multi .invalidStatus
    | some status => .scan record multi (off + 1) left (out ++ [⟨readMemberXid members off, status⟩])

/-- The steps of a backend. -/
inductive Move (s : State ι) (i : ι) : State ι → Prop
  | create (given : List MultiXactMember) (hpc : s.pc i = .idle)
      (hvalid : ∀ m ∈ given, transactionIdIsValid m.xid = true)
      (hone : (given.filter fun m => m.status.isUpdate).length ≤ 1) :
      Move s i (s.goto i (.create (storedOrder given)))
  | first (members) (hpc : s.pc i = .create members) :
      Move s i (s.afterSection i members (getNewFirst s.shared members.length))
  | stopped (members) (hpc : s.pc i = .warned members true) : Move s i (s.goto i .refused)
  | again (members) (hpc : s.pc i = .warned members false) :
      Move s i (s.afterSection i members (getNewAgain s.shared members.length))
  | ownSame (k multi offset members) (hpc : s.pc i = .own k multi offset members)
      (hpage : multiXactIdToOffsetPage (nextMultiXactId multi) = multiXactIdToOffsetPage multi) :
      Move s i (((s.setOffsets (writeOffsetEntry (writeOffsetEntry s.shared.offsets multi offset)
          (nextMultiXactId multi) (nextMemberOffset offset members.length))).note k
            { s.progress k with own := true, next := true }).goto i (.write k multi offset members))
  | ownOther (k multi offset members) (hpc : s.pc i = .own k multi offset members)
      (hpage : multiXactIdToOffsetPage (nextMultiXactId multi) ≠ multiXactIdToOffsetPage multi) :
      Move s i (((s.setOffsets (writeOffsetEntry s.shared.offsets multi offset)).note k
          { s.progress k with own := true }).goto i (.next k multi offset members))
  | next (k multi offset members) (hpc : s.pc i = .next k multi offset members) :
      Move s i (((s.setOffsets (writeOffsetEntry s.shared.offsets (nextMultiXactId multi)
          (nextMemberOffset offset members.length))).note k
            { s.progress k with next := true }).goto i (.write k multi offset members))
  | write (k multi off m todo) (hpc : s.pc i = .write k multi off (m :: todo)) :
      Move s i (((s.setMembers (writeMember s.shared.members off m)).note k { s.progress k with
            written := max (s.progress k).written ((s.history.log k).members.length - todo.length) }).goto i
            (.write k multi (off + 1) todo))
  | wrote (k multi off) (hpc : s.pc i = .write k multi off []) :
      Move s i ((s.note k { s.progress k with done := true }).goto i (.returned k multi))
  | leave (hpc : ∀ k multi offset members stop, s.pc i ≠ .warned members stop ∧
        s.pc i ≠ .own k multi offset members ∧ s.pc i ≠ .next k multi offset members ∧
        s.pc i ≠ .write k multi offset members) :
      Move s i (s.goto i .idle)
  | read (k) (hpc : s.pc i = .idle) (hk : k < s.history.count) (hdone : (s.progress k).done = true)
      (hlive : s.history.oldestIndex ≤ s.history.first + k) :
      Move s i (s.goto i (.read k (s.history.log k).multi))
  | check (k multi) (hpc : s.pc i = .read k multi) : Move s i (s.goto i (checkMulti s.shared.counters k multi))
  | find (k multi nextMXact nextOffset) (hpc : s.pc i = .checked k multi nextMXact nextOffset) :
      Move s i (s.goto i (.found k multi nextMXact nextOffset (readOffsetEntry s.shared.offsets multi)))
  | measure (k multi nextMXact nextOffset offset) (hpc : s.pc i = .found k multi nextMXact nextOffset offset) :
      Move s i (s.goto i (measure s.shared.offsets k multi nextMXact nextOffset offset))
  | slot (k multi off left out) (hpc : s.pc i = .scan k multi off (left + 1) out) :
      Move s i (s.goto i (scanSlot s.shared.members k multi off left out))
  | scanned (k multi off out) (hpc : s.pc i = .scan k multi off 0 out) : Move s i (s.goto i (.answered k multi out))

/-- The counters and the history when multixacts are cut off. -/
def State.truncate (s : State ι) (index pos : Nat) : State ι :=
  { s with
    shared := { s.shared with counters := { s.shared.counters with oldestMultiXactId := idOf index } }
    history := { s.history with oldestIndex := index, oldestPos := pos } }

/-- Others set the limits, and cut off multixacts that nobody works on any more. -/
inductive Around (s : State ι) : State ι → Prop
  | limits (limits : Limits) : Around s { s with shared := { s.shared with limits := limits } }
  | truncate (index pos : Nat) (hindex : s.history.oldestIndex ≤ index)
      (hend : index ≤ s.history.first + s.history.count)
      (hpos : s.history.oldestPos ≤ pos) (hposEnd : pos ≤ s.history.nextPos)
      (hlive : ∀ k < s.history.count, index ≤ s.history.first + k → pos ≤ (s.history.log k).pos)
      (hunused : ∀ i k, (s.pc i).record = some k → index ≤ s.history.first + k) :
      Around s (s.truncate index pos)

/-- Any counters and any pages, with any older multixacts. -/
structure Initial (s : State ι) : Prop where
  pc : ∀ i, s.pc i = .idle
  count : s.history.count = 0
  first : s.history.first = 2 ^ 32 - 1 + (s.shared.counters.nextMXact.toNat - 1)
  oldest : s.history.oldestIndex ≤ s.history.first
  span : s.history.first < s.history.oldestIndex + 2 ^ 31
  oldestMultiXactId : s.shared.counters.oldestMultiXactId = idOf s.history.oldestIndex
  nextPos : s.history.nextPos = 2 ^ 32 + s.shared.counters.nextOffset.toNat
  oldestPos : s.history.oldestPos ≤ s.history.nextPos

/-- Fewer than `2 ^ 31` live multixacts and fewer than `2 ^ 32 - 2` live members. -/
def Bounded (h : History) : Prop :=
  h.first + h.count < h.oldestIndex + 2 ^ 31 ∧ h.nextPos < h.oldestPos + (2 ^ 32 - 2)

instance (h : History) : Decidable (Bounded h) := inferInstanceAs (Decidable (_ ∧ _))

/-- The runs whose steps meet a condition. -/
inductive Reachable (P : State ι → ι → State ι → Prop) : State ι → Prop
  | init {s} (h : Initial s) : Reachable P s
  | step {s s' : State ι} {i : ι} (h : Reachable P s) (hmove : Move s i s') (hcond : P s i s') : Reachable P s'
  | around {s s' : State ι} (h : Reachable P s) (haround : Around s s') : Reachable P s'

end MultiXact
