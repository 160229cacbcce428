import Pgrust.ClogTree

/-!
Backends that commit and abort transaction trees in pg_xact, alone or through a group leader, and
readers that ask `TransactionIdDidCommit`. A step is one section under a bank lock, one access to the
list of the group, or one fetch of a status. Steps on fields that nobody else looks at yet (the
fields published before joining, the links of a list that is detached) are taken together.
-/
namespace Clog

open XidOrder

/-- The trees of a system, no two of which share a transaction. `parent` is pg_subtrans: the parent
of a subtransaction is the top level or a subtransaction that was assigned before. -/
structure Forest (τ : Type) where
  tree : τ → Tree
  parent : TransactionId → TransactionId
  normal : ∀ t, ∀ x ∈ (tree t).xids, transactionIdIsNormal x = true
  top_not_mem : ∀ t, (tree t).top ∉ (tree t).subxids
  disjoint : ∀ t t' x, x ∈ (tree t).xids → x ∈ (tree t').xids → t = t'
  recorded : ∀ t (k : Nat) (x : TransactionId), (tree t).subxids[k]? = some x →
    parent x ∈ (tree t).top :: (tree t).subxids.take k

/-- A call of `TransactionIdCommitTree` or `TransactionIdAbortTree`. -/
structure Call (τ : Type) where
  tree : τ
  status : XidStatus

/-- What of a backend's `PGPROC` takes part. -/
structure Proc (ι : Type) where
  xid : TransactionId
  subxids : List TransactionId
  clogGroupMember : Bool
  clogGroupMemberXid : TransactionId
  clogGroupMemberXidStatus : XidStatus
  clogGroupMemberPage : Nat
  clogGroupNext : Option ι

/-- The section that a leader carries out for a member. -/
def Proc.memberSection {ι : Type} (p : Proc ι) : Section :=
  ⟨some p.clogGroupMemberXid, p.subxids, p.clogGroupMemberXidStatus, p.clogGroupMemberPage⟩

/-- Where a writing backend is. `direct` has the sections left to do; a leader walks the list it has
detached and then wakes its members. -/
inductive Pc (ι τ : Type)
  | idle
  | direct (c : Call τ) (todo : List Section)
  | tryBank (c : Call τ)
  | publish (c : Call τ)
  | loadFirst (c : Call τ)
  | head (c : Call τ) (nextidx : Option ι)
  | cas (c : Call τ) (nextidx : Option ι)
  | follow (c : Call τ)
  | lead (c : Call τ)
  | walk (c : Call τ) (nextidx wakeidx : Option ι)
  | wake (c : Call τ) (wakeidx : Option ι)
  | returned (c : Call τ)

/-- A call of `TransactionIdDidCommit(asked)` for a transaction of a tree. `late` tells whether the
top level of the tree had committed status when it began, `fetches` counts the statuses fetched. -/
structure Query (τ : Type) where
  tree : τ
  asked : TransactionId
  xmin : TransactionId
  late : Bool
  fetches : Nat

inductive ReaderPc (τ : Type)
  | idle
  | reading (q : Query τ) (transactionId : TransactionId)
  | answered (q : Query τ) (answer : Bool)

/-- A reader with its one-entry cache. -/
structure Reader (τ : Type) where
  cachedFetchXid : TransactionId
  cachedFetchXidStatus : XidStatus
  pc : ReaderPc τ

/-- `fate` is the status each tree has been called with. -/
structure State (ι κ τ : Type) where
  pages : Pages
  fate : τ → Option XidStatus
  clogGroupFirst : Option ι
  proc : ι → Proc ι
  pc : ι → Pc ι τ
  reader : κ → Reader τ

variable {ι κ τ : Type}

def thresholdSubtransClogOpt : Nat := 5

/-- The condition under which the group is tried. -/
def mayJoin (tree : Tree) (p : Proc ι) : Bool :=
  tree.otherPages.isEmpty && decide (tree.subxids.length ≤ thresholdSubtransClogOpt) &&
    tree.top == p.xid && tree.subxids == p.subxids

/-- What a step of a writer does. -/
inductive Effect (ι τ : Type)
  | silent
  | call (c : Call τ)
  | write (sec : Section)
  | setFirst (first : Option ι)
  | setProc (j : ι) (p : Proc ι)

variable [DecidableEq ι] [DecidableEq τ]

def State.act (s : State ι κ τ) : Effect ι τ → State ι κ τ
  | .silent => s
  | .call c => { s with fate := Function.update s.fate c.tree (some c.status) }
  | .write sec => { s with pages := transactionIdSetPageStatusInternal s.pages sec }
  | .setFirst first => { s with clogGroupFirst := first }
  | .setProc j p => { s with proc := Function.update s.proc j p }

/-- Backend `i` goes on to `p` with an effect. -/
def State.move (s : State ι κ τ) (i : ι) (e : Effect ι τ) (p : Pc ι τ) : State ι κ τ where
  pages := (s.act e).pages
  fate := (s.act e).fate
  clogGroupFirst := (s.act e).clogGroupFirst
  proc := (s.act e).proc
  pc := Function.update s.pc i p
  reader := s.reader

/-- The steps of backend `i`. -/
inductive Move (F : Forest τ) (s : State ι κ τ) (i : ι) : Pc ι τ → Effect ι τ → Pc ι τ → Prop
  -- between calls a backend gets and drops its xids
  | assign (xid subxids) : Move F s i .idle (.setProc i { s.proc i with xid := xid, subxids := subxids }) .idle
  -- `TransactionIdSetTreeStatus`
  | callDirect (c : Call τ) (hstatus : c.status = .committed ∨ c.status = .aborted)
      (hnew : s.fate c.tree = none) (hjoin : mayJoin (F.tree c.tree) (s.proc i) = false) :
      Move F s i .idle (.call c) (.direct c (transactionIdSetTreeStatus (F.tree c.tree) c.status))
  | callGroup (c : Call τ) (hstatus : c.status = .committed ∨ c.status = .aborted)
      (hnew : s.fate c.tree = none) (hjoin : mayJoin (F.tree c.tree) (s.proc i) = true) :
      Move F s i .idle (.call c) (.tryBank c)
  | direct (c sec todo) : Move F s i (.direct c (sec :: todo)) (.write sec) (.direct c todo)
  | directDone (c) : Move F s i (.direct c []) .silent (.returned c)
  -- the conditional acquire of the bank lock
  | bankFree (c) : Move F s i (.tryBank c) (.write ((F.tree c.tree).mainSection c.status)) (.returned c)
  | bankBusy (c) : Move F s i (.tryBank c) .silent (.publish c)
  -- `TransactionGroupUpdateXidStatus`
  | publish (c) : Move F s i (.publish c) (.setProc i { s.proc i with
          clogGroupMember := true
          clogGroupMemberXid := (F.tree c.tree).top
          clogGroupMemberXidStatus := c.status
          clogGroupMemberPage := transactionIdToPage (F.tree c.tree).top })
        (.loadFirst c)
  | loadFirst (c) : Move F s i (.loadFirst c) .silent (.head c s.clogGroupFirst)
  | refused (c j) (h : (s.proc j).clogGroupMemberPage ≠ transactionIdToPage (F.tree c.tree).top) :
      Move F s i (.head c (some j)) (.setProc i { s.proc i with clogGroupMember := false, clogGroupNext := none })
        (.direct c [(F.tree c.tree).mainSection c.status])
  | link (c nextidx) (h : ∀ j, nextidx = some j →
        (s.proc j).clogGroupMemberPage = transactionIdToPage (F.tree c.tree).top) :
      Move F s i (.head c nextidx) (.setProc i { s.proc i with clogGroupNext := nextidx }) (.cas c nextidx)
  | casFail (c nextidx) (h : s.clogGroupFirst ≠ nextidx) :
      Move F s i (.cas c nextidx) .silent (.head c s.clogGroupFirst)
  | casFollow (c j) (h : s.clogGroupFirst = some j) : Move F s i (.cas c (some j)) (.setFirst (some i)) (.follow c)
  | casLead (c) (h : s.clogGroupFirst = none) : Move F s i (.cas c none) (.setFirst (some i)) (.lead c)
  | followed (c) (h : (s.proc i).clogGroupMember = false) : Move F s i (.follow c) .silent (.returned c)
  -- the leader, under the bank lock
  | detach (c) : Move F s i (.lead c) (.setFirst none) (.walk c s.clogGroupFirst s.clogGroupFirst)
  | walk (c j wakeidx) : Move F s i (.walk c (some j) wakeidx) (.write (s.proc j).memberSection)
        (.walk c (s.proc j).clogGroupNext wakeidx)
  | walked (c wakeidx) : Move F s i (.walk c none wakeidx) .silent (.wake c wakeidx)
  | wake (c j) :
      Move F s i (.wake c (some j)) (.setProc j { s.proc j with clogGroupMember := false, clogGroupNext := none })
        (.wake c (s.proc j).clogGroupNext)
  | woken (c) : Move F s i (.wake c none) .silent (.returned c)
  | leave (c) : Move F s i (.returned c) .silent .idle

/-- `TransactionLogFetch`: the status and the cache behind it. -/
def transactionLogFetch (pages : Pages) (r : Reader τ) (xid : TransactionId) : XidStatus × Reader τ :=
  if xid = r.cachedFetchXid then (r.cachedFetchXidStatus, r)
  else if !transactionIdIsNormal xid then
    (if xid = 1 then .committed else if xid = 2 then .committed else .aborted, r)
  else
    let status := transactionIdGetStatus pages xid
    if status ≠ .inProgress ∧ status ≠ .subCommitted then
      (status, { r with cachedFetchXid := xid, cachedFetchXidStatus := status })
    else (status, r)

/-- What `TransactionIdDidCommit` does with a status it has fetched. -/
def didCommitNext (F : Forest τ) (q : Query τ) (xid : TransactionId) : XidStatus → ReaderPc τ
  | .committed => .answered q true
  | .subCommitted =>
    if transactionIdPrecedes xid q.xmin then .answered q false
    else if !transactionIdIsValid (F.parent xid) then .answered q false
    else .reading { q with fetches := q.fetches + 1 } (F.parent xid)
  | _ => .answered q false

/-- The steps of a reader. -/
inductive Read (F : Forest τ) (s : State ι κ τ) : Reader τ → Reader τ → Prop
  | ask (r : Reader τ) (t x xmin) (hidle : r.pc = .idle) (hx : x ∈ (F.tree t).xids)
      (hxmin : ∀ y ∈ (F.tree t).xids, transactionIdPrecedes y xmin = false) :
      Read F s r { r with
        pc := .reading ⟨t, x, xmin, decide (transactionIdGetStatus s.pages (F.tree t).top = .committed), 0⟩ x }
  | fetch (r : Reader τ) (q xid) (hpc : r.pc = .reading q xid) :
      Read F s r { (transactionLogFetch s.pages r xid).2 with
        pc := didCommitNext F q xid (transactionLogFetch s.pages r xid).1 }
  | leave (r : Reader τ) (q answer) (hpc : r.pc = .answered q answer) : Read F s r { r with pc := .idle }

variable [DecidableEq κ]

/-- Nothing written for any tree, nobody in a group, the caches empty. -/
structure Initial (F : Forest τ) (s : State ι κ τ) : Prop where
  pages : ∀ t, ∀ x ∈ (F.tree t).xids, transactionIdGetStatus s.pages x = .inProgress
  fate : ∀ t, s.fate t = none
  first : s.clogGroupFirst = none
  pc : ∀ i, s.pc i = .idle
  reader : ∀ r, s.reader r = ⟨invalidTransactionId, .inProgress, .idle⟩

inductive Reachable (F : Forest τ) : State ι κ τ → Prop
  | init {s} (h : Initial F s) : Reachable F s
  | write {s : State ι κ τ} {i e p} (h : Reachable F s) (hmove : Move F s i (s.pc i) e p) :
      Reachable F (s.move i e p)
  | read {s : State ι κ τ} {k r} (h : Reachable F s) (hread : Read F s (s.reader k) r) :
      Reachable F { s with reader := Function.update s.reader k r }

end Clog
