import Pgrust.HeapTupleHeader
import Pgrust.MultiXactMember

/-!
`HeapTupleSatisfiesMVCC` and `HeapTupleSatisfiesVacuum`. What they ask about transactions comes from
`Oracles`. An answer that may change while a call goes on is asked for at a numbered point of the
code, later points of a call having larger numbers.
-/
namespace Heap

open XidOrder

structure Snapshot where
  xmin : TransactionId
  xmax : TransactionId
  xip : List TransactionId
  subxip : List TransactionId
  suboverflowed : Bool
  takenDuringRecovery : Bool
  curcid : Nat

/-- What a backend is told during a call. `hintOk` tells whether the commit record of a transaction
is flushed, or the page is safe from being written before it. -/
structure Oracles where
  isCurrent : TransactionId → Bool
  isInProgress : Nat → TransactionId → Bool
  didCommit : Nat → TransactionId → Bool
  members : TransactionId → List MultiXactMember
  topmost : TransactionId → TransactionId
  cmin : Nat
  cmax : Nat
  hintOk : TransactionId → Bool

def xidInMVCCSnapshot (topmost : TransactionId → TransactionId) (snapshot : Snapshot)
    (xid : TransactionId) : Bool :=
  if transactionIdPrecedes xid snapshot.xmin then false
  else if transactionIdFollowsOrEquals xid snapshot.xmax then true
  else if !snapshot.takenDuringRecovery then
    if !snapshot.suboverflowed then
      decide (xid ∈ snapshot.subxip) || decide (xid ∈ snapshot.xip)
    else if transactionIdPrecedes (topmost xid) snapshot.xmin then false
    else decide (topmost xid ∈ snapshot.xip)
  else if snapshot.suboverflowed then
    if transactionIdPrecedes (topmost xid) snapshot.xmin then false
    else decide (topmost xid ∈ snapshot.subxip)
  else decide (xid ∈ snapshot.subxip)

/-- The member that updates. -/
def multiXactIdGetUpdateXid (members : TransactionId → List MultiXactMember) (xmax : TransactionId) :
    TransactionId :=
  match (members xmax).find? fun m => m.status.isUpdate with
  | some m => m.xid
  | none => invalidTransactionId

/-- The members are asked about one after the other, from point `point` on. -/
def anyInProgress (o : Oracles) (point : Nat) : List MultiXactMember → Bool
  | [] => false
  | m :: ms => o.isInProgress point m.xid || anyInProgress o (point + 1) ms

def multiXactIdIsRunning (o : Oracles) (point : Nat) (multi : TransactionId) : Bool :=
  (o.members multi).any (fun m => o.isCurrent m.xid) || anyInProgress o point (o.members multi)

/-- With a valid `xid` the hint is set only when its commit record cannot be lost. -/
def setHintBits (o : Oracles) (t : HeapTupleHeader) (infomask : UInt16) (xid : TransactionId) : HeapTupleHeader :=
  if transactionIdIsValid xid && !o.hintOk xid then t else t.set infomask

/-- The tuple was inserted by the transaction that looks. -/
def mvccOwn (o : Oracles) (snapshot : Snapshot) (t : HeapTupleHeader) : Bool × HeapTupleHeader :=
  if snapshot.curcid ≤ o.cmin then (false, t)
  else if t.has heapXmaxInvalid then (true, t)
  else if t.lockedOnly then (true, t)
  else if t.isMulti then
    if !o.isCurrent (multiXactIdGetUpdateXid o.members t.xmax) then (true, t)
    else if snapshot.curcid ≤ o.cmax then (true, t)
    else (false, t)
  else if !o.isCurrent t.xmax then
    -- the deleting subtransaction must have aborted
    (true, setHintBits o t heapXmaxInvalid invalidTransactionId)
  else if snapshot.curcid ≤ o.cmax then (true, t)
  else (false, t)

/-- The inserter has committed for the snapshot. -/
def mvccXmax (o : Oracles) (snapshot : Snapshot) (t : HeapTupleHeader) : Bool × HeapTupleHeader :=
  let inSnapshot := xidInMVCCSnapshot o.topmost snapshot
  if t.has heapXmaxInvalid then (true, t)
  else if t.lockedOnly then (true, t)
  else if t.isMulti then
    let xmax := multiXactIdGetUpdateXid o.members t.xmax
    if o.isCurrent xmax then (decide (snapshot.curcid ≤ o.cmax), t)
    else if inSnapshot xmax then (true, t)
    else if o.didCommit 2 xmax then (false, t)
    else (true, t)
  else if !t.has heapXmaxCommitted then
    if o.isCurrent t.xmax then (decide (snapshot.curcid ≤ o.cmax), t)
    else if inSnapshot t.xmax then (true, t)
    else if !o.didCommit 2 t.xmax then
      (true, setHintBits o t heapXmaxInvalid invalidTransactionId)
    else (false, setHintBits o t heapXmaxCommitted t.xmax)
  else if inSnapshot t.xmax then (true, t)
  else (false, t)

def heapTupleSatisfiesMVCC (o : Oracles) (snapshot : Snapshot) (t : HeapTupleHeader) : Bool × HeapTupleHeader :=
  let inSnapshot := xidInMVCCSnapshot o.topmost snapshot
  if !t.xminCommitted then
    if t.xminInvalid then (false, t)
    else if t.has heapMovedOff then
      if o.isCurrent t.xvac then (false, t)
      else if !inSnapshot t.xvac then
        if o.didCommit 0 t.xvac then (false, setHintBits o t heapXminInvalid invalidTransactionId)
        else mvccXmax o snapshot (setHintBits o t heapXminCommitted invalidTransactionId)
      else mvccXmax o snapshot t
    else if t.has heapMovedIn then
      if !o.isCurrent t.xvac then
        if inSnapshot t.xvac then (false, t)
        else if o.didCommit 0 t.xvac then
          mvccXmax o snapshot (setHintBits o t heapXminCommitted invalidTransactionId)
        else (false, setHintBits o t heapXminInvalid invalidTransactionId)
      else mvccXmax o snapshot t
    else if o.isCurrent t.xmin then mvccOwn o snapshot t
    else if inSnapshot t.xmin then (false, t)
    else if o.didCommit 0 t.xmin then mvccXmax o snapshot (setHintBits o t heapXminCommitted t.xmin)
    else (false, setHintBits o t heapXminInvalid invalidTransactionId)
  else if !t.xminFrozen && inSnapshot t.xmin then (false, t)
  else mvccXmax o snapshot t

inductive HtsvResult
  | dead
  | live
  | recentlyDead
  | insertInProgress
  | deleteInProgress
  deriving DecidableEq

/-- The verdict with `dead_after` and the header. -/
structure Verdict where
  result : HtsvResult
  deadAfter : TransactionId
  header : HeapTupleHeader

/-- A verdict without `dead_after`. -/
def Verdict.plain (result : HtsvResult) (t : HeapTupleHeader) : Verdict := ⟨result, invalidTransactionId, t⟩

def heapTupleHeaderGetUpdateXid (o : Oracles) (t : HeapTupleHeader) : TransactionId :=
  if !t.has heapXmaxInvalid && t.isMulti && !t.lockedOnly then multiXactIdGetUpdateXid o.members t.xmax
  else t.xmax

def heapTupleHeaderIsOnlyLocked (o : Oracles) (t : HeapTupleHeader) : Bool :=
  if t.has heapXmaxInvalid then true
  else if t.has heapXmaxLockOnly then true
  else if !transactionIdIsValid t.xmax then true
  else if !t.isMulti then false
  else
    let xmax := multiXactIdGetUpdateXid o.members t.xmax
    if o.isCurrent xmax then false
    else if o.isInProgress 2 xmax then false
    else if o.didCommit 3 xmax then false
    else true

/-- The tuple was inserted by the transaction that looks. -/
def vacuumOwn (o : Oracles) (t : HeapTupleHeader) : Verdict :=
  if t.has heapXmaxInvalid then .plain .insertInProgress t
  else if t.lockedOnly || heapTupleHeaderIsOnlyLocked o t then .plain .insertInProgress t
  else if o.isCurrent (heapTupleHeaderGetUpdateXid o t) then .plain .deleteInProgress t
  else .plain .insertInProgress t

/-- The inserter has committed. -/
def vacuumXmax (o : Oracles) (t : HeapTupleHeader) : Verdict :=
  if t.has heapXmaxInvalid then .plain .live t
  else if t.lockedOnly then
    if !t.has heapXmaxCommitted then
      if t.isMulti then
        if !heapLockedUpgraded t.infomask && multiXactIdIsRunning o 2 t.xmax then .plain .live t
        else .plain .live (setHintBits o t heapXmaxInvalid invalidTransactionId)
      else if o.isInProgress 2 t.xmax then .plain .live t
      else .plain .live (setHintBits o t heapXmaxInvalid invalidTransactionId)
    else .plain .live t
  else if t.isMulti then
    let xmax := multiXactIdGetUpdateXid o.members t.xmax
    if o.isInProgress 2 xmax then .plain .deleteInProgress t
    else if o.didCommit 3 xmax then ⟨.recentlyDead, xmax, t⟩
    else if !multiXactIdIsRunning o 4 t.xmax then
      .plain .live (setHintBits o t heapXmaxInvalid invalidTransactionId)
    else .plain .live t
  else if !t.has heapXmaxCommitted then
    if o.isInProgress 2 t.xmax then .plain .deleteInProgress t
    else if o.didCommit 3 t.xmax then ⟨.recentlyDead, t.xmax, setHintBits o t heapXmaxCommitted t.xmax⟩
    else .plain .live (setHintBits o t heapXmaxInvalid invalidTransactionId)
  else ⟨.recentlyDead, t.xmax, t⟩

def heapTupleSatisfiesVacuumHorizon (o : Oracles) (t : HeapTupleHeader) : Verdict :=
  if !t.xminCommitted then
    if t.xminInvalid then .plain .dead t
    else if t.has heapMovedOff then
      if o.isCurrent t.xvac then .plain .deleteInProgress t
      else if o.isInProgress 0 t.xvac then .plain .deleteInProgress t
      else if o.didCommit 1 t.xvac then
        .plain .dead (setHintBits o t heapXminInvalid invalidTransactionId)
      else vacuumXmax o (setHintBits o t heapXminCommitted invalidTransactionId)
    else if t.has heapMovedIn then
      if o.isCurrent t.xvac then .plain .insertInProgress t
      else if o.isInProgress 0 t.xvac then .plain .insertInProgress t
      else if o.didCommit 1 t.xvac then
        vacuumXmax o (setHintBits o t heapXminCommitted invalidTransactionId)
      else .plain .dead (setHintBits o t heapXminInvalid invalidTransactionId)
    else if o.isCurrent t.xmin then vacuumOwn o t
    else if o.isInProgress 0 t.xmin then .plain .insertInProgress t
    else if o.didCommit 1 t.xmin then vacuumXmax o (setHintBits o t heapXminCommitted t.xmin)
    else .plain .dead (setHintBits o t heapXminInvalid invalidTransactionId)
  else vacuumXmax o t

def heapTupleSatisfiesVacuum (o : Oracles) (oldestXmin : TransactionId) (t : HeapTupleHeader) : Verdict :=
  let v := heapTupleSatisfiesVacuumHorizon o t
  if v.result = .recentlyDead ∧ transactionIdPrecedes v.deadAfter oldestXmin = true then
    { v with result := .dead }
  else v

end Heap
