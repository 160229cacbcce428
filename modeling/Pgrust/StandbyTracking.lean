import Mathlib.Data.List.Pairwise
import Pgrust.KnownAssignedXids

/-!
The startup process keeps the set of transactions running on the primary: a running-transactions record
installs them, every id seen later is added with the ids skipped before it, and ends take them out. The
abstract state is that set alone.
-/

namespace StandbyTracking

open XidOrder KnownAssignedXids List

variable {base latest : TransactionId} {live : Set TransactionId}

/-- From `STANDBY_INITIALIZED` on. -/
inductive StandbyState
  | initialized
  | snapshotPending
  | snapshotReady
  deriving DecidableEq

inductive SubxidStatus
  | inArray
  | missing
  | inSubtrans
  deriving DecidableEq

/-- A running-transactions record; it holds as many ids as it counts. -/
structure RunningTransactionsData where
  xcnt : Nat
  subxcnt : Nat
  subxidStatus : SubxidStatus
  nextXid : TransactionId
  oldestRunningXid : TransactionId
  xids : List TransactionId
  fits : xcnt + subxcnt ≤ xids.length

/-- The ids the record lists. -/
def RunningTransactionsData.listed (running : RunningTransactionsData) : List TransactionId :=
  running.xids.take (running.xcnt + running.subxcnt)

structure Standby where
  kax : Kax
  standbyState : StandbyState
  latestObservedXid : TransactionId
  standbySnapshotPendingXmin : TransactionId
  lastOverflowedXid : TransactionId

/-- What the transaction log says about ids while an event is applied. -/
structure XactLog where
  isPrepared : TransactionId → Bool
  didCommit : TransactionId → Bool
  didAbort : TransactionId → Bool

def Standby.expireOldKnownAssignedTransactionIds (s : Standby) (log : XactLog) (xid : TransactionId) : Standby :=
  { s with
    lastOverflowedXid :=
      if transactionIdPrecedes s.lastOverflowedXid xid then invalidTransactionId else s.lastOverflowedXid
    kax := s.kax.knownAssignedXidsRemovePreceding log.isPrepared xid }

def Standby.expireTreeKnownAssignedTransactionIds (s : Standby) (xid : TransactionId)
    (subxids : List TransactionId) : Standby :=
  { s with kax := s.kax.knownAssignedXidsRemoveTree xid subxids }

/-- The listed ids that have neither committed nor aborted. -/
def liveIds (running : RunningTransactionsData) (log : XactLog) : List TransactionId :=
  running.listed.filter (fun xid => !(log.didCommit xid || log.didAbort xid))

/-- The loop that adds the sorted ids one by one; `prev` is the id before. -/
def installLoop : Kax → Option TransactionId → List TransactionId → Except KaxError Kax
  | s, _, [] => .ok s
  | s, prev, x :: xs =>
    if prev = some x then installLoop s (some x) xs
    else
      match s.knownAssignedXidsAdd x x with
      | .error e => .error e
      | .ok s' => installLoop s' (some x) xs

/-- The ids are sorted as plain numbers. -/
def installXids (s : Kax) (xids : List TransactionId) : Except KaxError Kax :=
  if xids = [] then .ok s
  else if s.num ≠ 0 then .error .notEmpty
  else installLoop s none (xids.insertionSort (fun a b => a ≤ b))

/-- The counting up to the id before `next_xid`. -/
def catchUp (latest nextXid : TransactionId) : TransactionId :=
  transactionIdRetreat
    (advanceTo (nextXid - transactionIdAdvance latest).toNat (transactionIdAdvance latest) nextXid)

def Standby.installed (s : Standby) (running : RunningTransactionsData) (kax : Kax) : Standby :=
  let latest := catchUp s.latestObservedXid running.nextXid
  match running.subxidStatus with
  | .missing =>
    { kax
      standbyState := .snapshotPending
      latestObservedXid := latest
      standbySnapshotPendingXmin := latest
      lastOverflowedXid := latest }
  | .inSubtrans =>
    { kax
      standbyState := .snapshotReady
      latestObservedXid := latest
      standbySnapshotPendingXmin := invalidTransactionId
      lastOverflowedXid := latest }
  | .inArray =>
    { kax
      standbyState := .snapshotReady
      latestObservedXid := latest
      standbySnapshotPendingXmin := invalidTransactionId
      lastOverflowedXid := invalidTransactionId }

def Standby.install (s : Standby) (running : RunningTransactionsData) (log : XactLog) : Except KaxError Standby :=
  match installXids s.kax (liveIds running log) with
  | .error e => .error e
  | .ok kax => .ok (s.installed running kax)

def Standby.procArrayApplyRecoveryInfo (s : Standby) (running : RunningTransactionsData) (log : XactLog) :
    Except KaxError Standby :=
  let s := s.expireOldKnownAssignedTransactionIds log running.oldestRunningXid
  match s.standbyState with
  | .snapshotReady => .ok s
  | .snapshotPending =>
    if running.subxidStatus ≠ .missing ∨ running.xcnt = 0 then
      Standby.install { s with kax := s.kax.knownAssignedXidsReset, standbyState := .initialized } running log
    else if transactionIdPrecedes s.standbySnapshotPendingXmin running.oldestRunningXid then
      .ok { s with standbyState := .snapshotReady }
    else .ok s
  | .initialized => s.install running log

def Standby.recordKnownAssignedTransactionIds (s : Standby) (xid : TransactionId) : Except KaxError Standby :=
  if transactionIdFollows xid s.latestObservedXid then
    if s.standbyState = .initialized then .ok { s with latestObservedXid := xid }
    else
      match s.kax.knownAssignedXidsAdd (transactionIdAdvance s.latestObservedXid) xid with
      | .error e => .error e
      | .ok kax => .ok { s with kax, latestObservedXid := xid }
  else .ok s

/-- The end of an assignment, where the subtransactions leave the array. -/
def Standby.assigned (s : Standby) (maxXid : TransactionId) (subxids : List TransactionId) : Standby :=
  if s.standbyState = .initialized then s
  else
    { s with
      kax := s.kax.knownAssignedXidsRemoveTree invalidTransactionId subxids
      lastOverflowedXid :=
        if transactionIdPrecedes s.lastOverflowedXid maxXid then maxXid else s.lastOverflowedXid }

def Standby.procArrayApplyXidAssignment (s : Standby) (topxid : TransactionId)
    (subxids : List TransactionId) : Except KaxError Standby :=
  match s.recordKnownAssignedTransactionIds (transactionIdLatest topxid subxids) with
  | .error e => .error e
  | .ok s' => .ok (s'.assigned (transactionIdLatest topxid subxids) subxids)

def Standby.knownAssignedTransactionIdsIdleMaintenance (s : Standby) : Standby :=
  { s with kax := s.kax.compress .startupProcessIdle }

inductive Event
  | applyRecoveryInfo (running : RunningTransactionsData) (log : XactLog)
  | recordKnownAssigned (xid : TransactionId)
  | applyXidAssignment (topxid : TransactionId) (subxids : List TransactionId)
  | expireTree (xid : TransactionId) (subxids : List TransactionId)
  | expireOld (log : XactLog) (xid : TransactionId)
  | idleMaintenance

def Standby.apply (s : Standby) : Event → Except KaxError Standby
  | .applyRecoveryInfo running log => s.procArrayApplyRecoveryInfo running log
  | .recordKnownAssigned xid => s.recordKnownAssignedTransactionIds xid
  | .applyXidAssignment topxid subxids => s.procArrayApplyXidAssignment topxid subxids
  | .expireTree xid subxids => .ok (s.expireTreeKnownAssignedTransactionIds xid subxids)
  | .expireOld log xid => .ok (s.expireOldKnownAssignedTransactionIds log xid)
  | .idleMaintenance => .ok s.knownAssignedTransactionIdsIdleMaintenance

/-- The record is taken over as the set of running transactions. -/
def Standby.installs (s : Standby) (running : RunningTransactionsData) : Bool :=
  match s.standbyState with
  | .snapshotReady => false
  | .snapshotPending => decide (running.subxidStatus ≠ .missing ∨ running.xcnt = 0)
  | .initialized => true

/-- The ids an event names. -/
def Event.ids : Event → List TransactionId
  | .applyRecoveryInfo running _ => running.nextXid :: running.oldestRunningXid :: running.listed
  | .recordKnownAssigned xid => [xid]
  | .applyXidAssignment topxid subxids => topxid :: subxids
  | .expireTree xid subxids => if transactionIdIsValid xid then xid :: subxids else subxids
  | .expireOld _ xid => [xid]
  | .idleMaintenance => []

/-- Seeing `xid` does not add more ids than the array has room for. -/
def Standby.RoomFor (s : Standby) (xid : TransactionId) : Prop :=
  s.standbyState ≠ .initialized → transactionIdFollows xid s.latestObservedXid = true →
    s.kax.num + nxids (transactionIdAdvance s.latestObservedXid) xid ≤ s.kax.maxKnownAssignedXids

/-- The array is large enough for the ids an event adds. -/
def Standby.Room (s : Standby) : Event → Prop
  | .applyRecoveryInfo running log =>
    s.installs running = true → (liveIds running log).toFinset.card ≤ s.kax.maxKnownAssignedXids
  | .recordKnownAssigned xid => s.RoomFor xid
  | .applyXidAssignment topxid subxids => s.RoomFor (transactionIdLatest topxid subxids)
  | _ => True

/-- The standby when recovery begins. -/
structure Initial (s : Standby) : Prop where
  state : s.standbyState = .initialized
  head : s.kax.head = 0
  tail : s.kax.tail = 0
  num : s.kax.num = 0

/-- What holds in every state: the array is in order up to the last id seen, and its members are the
running transactions. -/
structure Inv (base : TransactionId) (s : Standby) (live : Set TransactionId) : Prop where
  shows : ∃ m, Shows base (rank base s.latestObservedXid + 1) s.kax m ∧ ∀ x, x ∈ m ↔ x ∈ live
  latest : InWindow base s.latestObservedXid
  empty : s.standbyState = .initialized → Shows base 0 s.kax []

variable {x : TransactionId} {xs m : List TransactionId} {kax : Kax} {bound : Nat}

section Yields

variable {α β : Type} {a : α} {e : Except KaxError α} {P : α → Prop} {Q : Prop}

/-- What a call gives satisfies `P`, and under `Q` it gives something. -/
def Yields (e : Except KaxError α) (P : α → Prop) (Q : Prop) : Prop := (∀ a, e = .ok a → P a) ∧ (Q → ∃ a, e = .ok a)

theorem yields_ok (h : P a) : Yields (.ok a) P Q := by
  refine ⟨?_, fun _ => ⟨a, rfl⟩⟩
  intro a' hok
  rw [← Except.ok.inj hok]
  exact h

theorem yields_error (h : ¬ Q) : Yields (.error err) P Q := by
  refine ⟨?_, fun hq => absurd hq h⟩
  nofun

theorem Yields.mono (h : Yields e P Q) (hP : ∀ a, P a → P' a) (hQ : Q' → Q) : Yields e P' Q' :=
  ⟨fun a hok => hP a (h.1 a hok), fun hq => h.2 (hQ hq)⟩

/-- A call that goes on after another. -/
theorem Yields.after {f : α → β} {P' : β → Prop} (h : Yields e P Q) (hf : ∀ a, P a → P' (f a)) :
    Yields (e.map f) P' Q := by
  cases e with
  | error =>
    refine yields_error (fun hq => ?_)
    obtain ⟨a, hok⟩ := h.2 hq
    cases hok
  | ok a => exact yields_ok (hf a (h.1 a rfl))

end Yields

section Steps

variable {xid : TransactionId} {s s' : Standby} {log : XactLog}

theorem initial_inv (h : Initial s) (hlatest : InWindow base s.latestObservedXid) : Inv base s ∅ := by
  have hempty : Shows base 0 s.kax [] := shows_nil h.head h.tail h.num
  refine ⟨⟨[], hempty.mono (Nat.zero_le _), ?_⟩, hlatest, fun _ => hempty⟩
  intro x
  exact ⟨fun hx => absurd hx not_mem_nil, fun hx => absurd hx (Set.notMem_empty x)⟩

/-- An operation that only takes members out. -/
theorem Inv.filter (h : Inv base s live) (hstate : s'.standbyState = s.standbyState)
    (hlatest : s'.latestObservedXid = s.latestObservedXid)
    (hkax : ∀ bound m, Shows base bound s.kax m → Shows base bound s'.kax (m.filter P))
    (hlive : ∀ y, InWindow base y → (y ∈ live' ↔ y ∈ live ∧ P y = true)) (hsub : live' ⊆ live) :
    Inv base s' live' := by
  obtain ⟨m, hshows, hm⟩ := h.shows
  refine ⟨⟨m.filter P, ?_, ?_⟩, ?_, ?_⟩
  · rw [hlatest]
    exact hkax _ m hshows
  · intro y
    rw [mem_filter]
    constructor
    · rintro ⟨hy, hP⟩
      exact (hlive y (hshows.window hy).1).mpr ⟨(hm y).mp hy, hP⟩
    · intro hy
      have hmem := (hm y).mpr (hsub hy)
      exact ⟨hmem, ((hlive y (hshows.window hmem).1).mp hy).2⟩
  · rw [hlatest]
    exact h.latest
  · intro hinit
    rw [hstate] at hinit
    exact hkax 0 [] (h.empty hinit)

/-- Ids in the circular order, behind the one before them. -/
def Ordered (base : TransactionId) (prev : Option TransactionId) (xs : List TransactionId) : Prop :=
  (prev.toList ++ xs).Pairwise (fun a b => rank base a ≤ rank base b)

end Steps

/-- The entries between tail and head. -/
def entries (s : Kax) : List (TransactionId × Bool) := cells s.xids s.valid s.tail (s.head - s.tail)

namespace Run

/-- Nothing has ended. -/
def running : XactLog := ⟨fun _ => false, fun _ => false, fun _ => false⟩

/-- A record that lists ids on both sides of the wrap-around. -/
def wrapped : RunningTransactionsData where
  xcnt := 2
  subxcnt := 0
  subxidStatus := .inArray
  nextXid := 6
  oldestRunningXid := 0xFFFFFFFA
  xids := [0xFFFFFFFA, 5]
  fits := by decide

/-- A record with a duplicate, not in order. -/
def plain : RunningTransactionsData where
  xcnt := 2
  subxcnt := 1
  subxidStatus := .inArray
  nextXid := 6
  oldestRunningXid := 4
  xids := [5, 4, 5]
  fits := by decide

end Run

end StandbyTracking
