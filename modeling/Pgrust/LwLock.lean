import Pgrust.LwWord

/-!
One `LWLock` and the processes `ι` that use it. A step is one atomic operation on the state word, on
a process's `lwWaiting`, on a semaphore or on the variable of the lock; what is done to the wait list
under `LW_FLAG_LOCKED` is one step. A failed `compare_exchange_weak` is a step of its own where the
code looks at the value it returns. A process does not take the lock again while it has it.
-/
namespace LwLock

open LwWord

/-- The modes in which the lock is taken. -/
inductive Mode
  | exclusive
  | shared
  deriving DecidableEq

/-- `lwWaitMode`. -/
inductive WaitMode
  | exclusive
  | shared
  | waitUntilFree
  deriving DecidableEq

/-- `lwWaiting`. -/
inductive WaitState
  | notWaiting
  | waiting
  | pendingWakeup
  deriving DecidableEq

/-- The calls that ask for the lock: `LWLockAcquire`, `LWLockConditionalAcquire`,
`LWLockAcquireOrWait` and `LWLockWaitForVar`. -/
inductive Call
  | acquire (mode : Mode)
  | conditional (mode : Mode)
  | orWait (mode : Mode)
  | forVar (oldval : UInt64)
  deriving DecidableEq

/-- What the caller has after it got what it asked for. -/
def Call.mode : Call → Option Mode
  | acquire mode | conditional mode | orWait mode => some mode
  | forVar _ => none

def Mode.wait : Mode → WaitMode
  | exclusive => .exclusive
  | shared => .shared

/-- The mode in which the caller is queued. -/
def Call.waitMode : Call → WaitMode
  | acquire mode => mode.wait
  | _ => .waitUntilFree

/-- The call comes back for the lock when it is woken. -/
def Call.retries : Call → Bool
  | acquire _ => true
  | _ => false

/-- Which attempt of a call: the first one, the one after queueing, the one after waking up. -/
inductive Stage
  | first
  | queued
  | retry
  deriving DecidableEq

/-- What follows when the processes taken off the list have been woken. -/
inductive Ret
  | released
  | backedOut (c : Call) (stage : Stage) (extraWaits : Nat)
  | updated

/-- Where a process is. `extraWaits` is what it has absorbed of its semaphore so far. -/
inductive Pc (ι : Type)
  | idle
  | held (mode : Mode)
  -- `LWLockAttemptLock` and `LWLockConflictsWithVar`
  | attempt (c : Call) (stage : Stage) (extraWaits : Nat)
  | cas (c : Call) (stage : Stage) (extraWaits : Nat) (old : UInt32)
  | backout (c : Call) (stage : Stage) (extraWaits : Nat)
  | checkVar (oldval : UInt64) (stage : Stage) (extraWaits : Nat)
  -- `LWLockQueueSelf`
  | queue (c : Call) (extraWaits : Nat)
  | queueLock (c : Call) (extraWaits : Nat)
  | queueFlag (c : Call) (extraWaits : Nat)
  | queuePush (c : Call) (extraWaits : Nat)
  | queueUnlock (c : Call) (extraWaits : Nat)
  | panicked
  | forceOk (oldval : UInt64) (extraWaits : Nat)
  -- `wait_until_awakened`
  | sleep (c : Call) (extraWaits : Nat)
  | sleepCheck (c : Call) (extraWaits : Nat)
  | awake (c : Call) (extraWaits : Nat)
  -- `LWLockDequeueSelf`
  | dequeue (c : Call) (extraWaits : Nat)
  | dequeueList (c : Call) (extraWaits : Nat)
  | dequeueFlag (c : Call) (extraWaits : Nat) (onWaitlist : Bool)
  | dequeueUnlock (c : Call) (extraWaits : Nat) (onWaitlist : Bool)
  | dequeueClear (c : Call) (extraWaits : Nat)
  | dequeueOk (c : Call) (extraWaits : Nat)
  | dequeueSleep (c : Call) (extraWaits absorbed : Nat)
  | dequeueCheck (c : Call) (extraWaits absorbed : Nat)
  | dequeueRepay (c : Call) (extraWaits absorbed : Nat)
  | repay (mode : Option Mode) (extraWaits : Nat)
  -- `LWLockWakeup`
  | wakeLock (r : Ret)
  | wakeScan (r : Ret)
  | wakeCas (r : Ret) (wakeup : List ι) (newReleaseOk : Bool)
  | wakeFlag (r : Ret) (wakeup : List ι)
  | wakePost (r : Ret) (cur : ι) (wakeup : List ι)
  -- `LWLockUpdateVar` and the releases
  | updateLock
  | updateScan
  | updateUnlock (wakeup : List ι)
  | releasing (mode : Mode)

variable {ι : Type}

/-- After an attempt that must wait. -/
def Pc.afterFail (c : Call) (stage : Stage) (extraWaits : Nat) : Pc ι :=
  match c, stage with
  | .conditional _, .first => .idle
  | c, .queued => .sleep c extraWaits
  | c, _ => .queue c extraWaits

/-- After an attempt that need not wait. -/
def Pc.afterOk (c : Call) (stage : Stage) (extraWaits : Nat) : Pc ι :=
  match stage with
  | .queued => .dequeue c extraWaits
  | _ => .repay c.mode extraWaits

/-- After queueing, `LWLockWaitForVar` forces the next release to wake it. -/
def Pc.afterQueue (c : Call) (extraWaits : Nat) : Pc ι :=
  match c with
  | .forVar oldval => .forceOk oldval extraWaits
  | c => .attempt c .queued extraWaits

def Pc.afterWake : Ret → Pc ι
  | .released => .idle
  | .backedOut c stage extraWaits => .afterFail c stage extraWaits
  | .updated => .held .exclusive

/-- What the processes share: the lock with its wait list, the variable, and of each process the
wait state, the wait mode and the semaphore. -/
structure Mem (ι : Type) where
  word : UInt32
  waiters : List ι
  lwWaiting : ι → WaitState
  lwWaitMode : ι → WaitMode
  sem : ι → Nat
  var : UInt64

/-- What a walk over the wait list takes off it, and what it leaves. -/
structure Scan (ι : Type) where
  wakeup : List ι
  rest : List ι
  wokeupSomebody : Bool

/-- The walk of `LWLockWakeup`: once somebody who wants the lock is woken, no exclusive waiter is,
and behind an exclusive waiter that is woken the walk ends. -/
def scanWaiters (mode : ι → WaitMode) (wokeupSomebody : Bool) : List ι → Scan ι
  | [] => ⟨[], [], wokeupSomebody⟩
  | cur :: next =>
    if wokeupSomebody ∧ mode cur = .exclusive then
      let scan := scanWaiters mode wokeupSomebody next
      ⟨scan.wakeup, cur :: scan.rest, scan.wokeupSomebody⟩
    else if mode cur = .exclusive then ⟨[cur], next, true⟩
    else
      let scan := scanWaiters mode (wokeupSomebody || mode cur != .waitUntilFree) next
      ⟨cur :: scan.wakeup, scan.rest, scan.wokeupSomebody⟩

/-- The walk of `LWLockUpdateVar`. -/
def scanUntilFree (mode : ι → WaitMode) (waiters : List ι) : Scan ι where
  wakeup := waiters.takeWhile fun cur => mode cur = .waitUntilFree
  rest := waiters.dropWhile fun cur => mode cur = .waitUntilFree
  wokeupSomebody := false

/-- What a step does to what is shared. -/
inductive Effect (ι : Type)
  | silent
  | addShared
  | addExclusive
  | subShared
  | subExclusive
  | lockList
  | unlockList
  | setHasWaiters
  | clearHasWaiters
  | setReleaseOk
  | wakeWord (newReleaseOk : Bool)
  | push (mode : WaitMode)
  | delete
  | takeOff (scan : Scan ι)
  | notWaiting (j : ι)
  | semUnlock (j : ι)
  | semLock
  | setVar (val : UInt64)

variable [DecidableEq ι]

def Mem.act (m : Mem ι) (i : ι) : Effect ι → Mem ι
  | .silent => m
  | .addShared => { m with word := m.word + lwValShared }
  | .addExclusive => { m with word := m.word + lwValExclusive }
  | .subShared => { m with word := m.word - lwValShared }
  | .subExclusive => { m with word := m.word - lwValExclusive }
  | .lockList => { m with word := m.word ||| lwFlagLocked }
  | .unlockList => { m with word := m.word &&& ~~~lwFlagLocked }
  | .setHasWaiters => { m with word := m.word ||| lwFlagHasWaiters }
  | .clearHasWaiters => { m with word := m.word &&& ~~~lwFlagHasWaiters }
  | .setReleaseOk => { m with word := m.word ||| lwFlagReleaseOk }
  | .wakeWord newReleaseOk => { m with word := LwWord.wakeWord newReleaseOk m.waiters.isEmpty m.word }
  | .push mode =>
    { m with
      waiters := if mode = .waitUntilFree then i :: m.waiters else m.waiters ++ [i]
      lwWaiting := Function.update m.lwWaiting i .waiting
      lwWaitMode := Function.update m.lwWaitMode i mode }
  | .delete => { m with waiters := m.waiters.erase i }
  | .takeOff scan =>
    { m with
      waiters := scan.rest
      lwWaiting := fun j => if j ∈ scan.wakeup then .pendingWakeup else m.lwWaiting j }
  | .notWaiting j => { m with lwWaiting := Function.update m.lwWaiting j .notWaiting }
  | .semUnlock j => { m with sem := Function.update m.sem j (m.sem j + 1) }
  | .semLock => { m with sem := Function.update m.sem i (m.sem i - 1) }
  | .setVar val => { m with var := val }

/-- The steps of process `i`. -/
inductive Move (m : Mem ι) (i : ι) : Pc ι → Effect ι → Pc ι → Prop
  | call (c) : Move m i .idle .silent (.attempt c .first 0)
  -- `LWLockAttemptLock`, shared: add first, look afterwards
  | addOk (c stage x) (hc : c.mode = some .shared) (h : m.word &&& lwValExclusive = 0) :
      Move m i (.attempt c stage x) .addShared (.afterOk c stage x)
  | addFail (c stage x) (hc : c.mode = some .shared) (h : m.word &&& lwValExclusive ≠ 0) :
      Move m i (.attempt c stage x) .addShared (.backout c stage x)
  -- `LWLockAttemptLock`, exclusive
  | loadFail (c stage x) (hc : c.mode = some .exclusive) (h : m.word &&& lwLockMask ≠ 0) :
      Move m i (.attempt c stage x) .silent (.afterFail c stage x)
  | loadFree (c stage x) (hc : c.mode = some .exclusive) (h : m.word &&& lwLockMask = 0) :
      Move m i (.attempt c stage x) .silent (.cas c stage x m.word)
  | casOk (c stage x) : Move m i (.cas c stage x m.word) .addExclusive (.afterOk c stage x)
  | casFail (c stage x old) (h : m.word &&& lwLockMask ≠ 0) :
      Move m i (.cas c stage x old) .silent (.afterFail c stage x)
  | casAgain (c stage x old) (h : m.word &&& lwLockMask = 0) :
      Move m i (.cas c stage x old) .silent (.cas c stage x m.word)
  -- `LWLockConflictsWithVar`
  | stateFree (oldval stage x) (h : m.word &&& lwValExclusive = 0) :
      Move m i (.attempt (.forVar oldval) stage x) .silent (.afterOk (.forVar oldval) stage x)
  | stateHeld (oldval stage x) (h : m.word &&& lwValExclusive ≠ 0) :
      Move m i (.attempt (.forVar oldval) stage x) .silent (.checkVar oldval stage x)
  | varChanged (oldval stage x) (h : m.var ≠ oldval) :
      Move m i (.checkVar oldval stage x) .silent (.afterOk (.forVar oldval) stage x)
  | varSame (oldval stage x) (h : m.var = oldval) :
      Move m i (.checkVar oldval stage x) .silent (.afterFail (.forVar oldval) stage x)
  -- `LWLockAttemptLockBackout`
  | backoutWake (c stage x) (h : checkWaiters (m.word - lwValShared) = true) :
      Move m i (.backout c stage x) .subShared (.wakeLock (.backedOut c stage x))
  | backoutDone (c stage x) (h : checkWaiters (m.word - lwValShared) = false) :
      Move m i (.backout c stage x) .subShared (.afterFail c stage x)
  -- `LWLockQueueSelf`
  | queuePanic (c x) (h : m.lwWaiting i ≠ .notWaiting) : Move m i (.queue c x) .silent .panicked
  | queue (c x) (h : m.lwWaiting i = .notWaiting) : Move m i (.queue c x) .silent (.queueLock c x)
  | queueLock (c x) (h : m.word &&& lwFlagLocked = 0) : Move m i (.queueLock c x) .lockList (.queueFlag c x)
  | queueFlag (c x) : Move m i (.queueFlag c x) .setHasWaiters (.queuePush c x)
  | queuePush (c x) : Move m i (.queuePush c x) (.push c.waitMode) (.queueUnlock c x)
  | queueUnlock (c x) : Move m i (.queueUnlock c x) .unlockList (.afterQueue c x)
  | forceOk (oldval x) : Move m i (.forceOk oldval x) .setReleaseOk (.attempt (.forVar oldval) .queued x)
  -- `wait_until_awakened` and what the calls do behind it
  | sleep (c x) (h : 0 < m.sem i) : Move m i (.sleep c x) .semLock (.sleepCheck c x)
  | sleepAgain (c x) (h : m.lwWaiting i ≠ .notWaiting) : Move m i (.sleepCheck c x) .silent (.sleep c (x + 1))
  | awoken (c x) (h : m.lwWaiting i = .notWaiting) : Move m i (.sleepCheck c x) .silent (.awake c x)
  | retry (mode x) : Move m i (.awake (.acquire mode) x) .setReleaseOk (.attempt (.acquire mode) .retry x)
  | giveUp (mode x) : Move m i (.awake (.orWait mode) x) .silent (.repay none x)
  | recheck (oldval x) : Move m i (.awake (.forVar oldval) x) .silent (.attempt (.forVar oldval) .first x)
  -- `LWLockDequeueSelf`
  | dequeueLock (c x) (h : m.word &&& lwFlagLocked = 0) : Move m i (.dequeue c x) .lockList (.dequeueList c x)
  | dequeueOn (c x) (h : m.lwWaiting i = .waiting) : Move m i (.dequeueList c x) .delete (.dequeueFlag c x true)
  | dequeueOff (c x) (h : m.lwWaiting i ≠ .waiting) : Move m i (.dequeueList c x) .silent (.dequeueFlag c x false)
  | dequeueLast (c x on) (h : m.waiters = []) (hw : m.word &&& lwFlagHasWaiters ≠ 0) :
      Move m i (.dequeueFlag c x on) .clearHasWaiters (.dequeueUnlock c x on)
  | dequeueMore (c x on) (h : m.waiters ≠ [] ∨ m.word &&& lwFlagHasWaiters = 0) :
      Move m i (.dequeueFlag c x on) .silent (.dequeueUnlock c x on)
  | dequeueLeft (c x) : Move m i (.dequeueUnlock c x true) .unlockList (.dequeueClear c x)
  | dequeueTaken (c x) : Move m i (.dequeueUnlock c x false) .unlockList (.dequeueOk c x)
  | dequeueClear (c x) : Move m i (.dequeueClear c x) (.notWaiting i) (.repay c.mode x)
  | dequeueOk (c x) : Move m i (.dequeueOk c x) .setReleaseOk (.dequeueSleep c x 0)
  | dequeueSleep (c x y) (h : 0 < m.sem i) : Move m i (.dequeueSleep c x y) .semLock (.dequeueCheck c x y)
  | dequeueAgain (c x y) (h : m.lwWaiting i ≠ .notWaiting) :
      Move m i (.dequeueCheck c x y) .silent (.dequeueSleep c x (y + 1))
  | dequeueAwoken (c x y) (h : m.lwWaiting i = .notWaiting) :
      Move m i (.dequeueCheck c x y) .silent (.dequeueRepay c x y)
  | dequeueRepay (c x y) : Move m i (.dequeueRepay c x (y + 1)) (.semUnlock i) (.dequeueRepay c x y)
  | dequeueDone (c x) : Move m i (.dequeueRepay c x 0) .silent (.repay c.mode x)
  -- the semaphore gets back what was absorbed, and the call returns
  | repay (mode x) : Move m i (.repay mode (x + 1)) (.semUnlock i) (.repay mode x)
  | got (mode) : Move m i (.repay (some mode) 0) .silent (.held mode)
  | returned : Move m i (.repay none 0) .silent .idle
  -- `LWLockWakeup`
  | wakeLock (r) (h : m.word &&& lwFlagLocked = 0) : Move m i (.wakeLock r) .lockList (.wakeScan r)
  | wakeScan (r scan) (h : scan = scanWaiters m.lwWaitMode false m.waiters) :
      Move m i (.wakeScan r) (.takeOff scan) (.wakeCas r scan.wakeup (!scan.wokeupSomebody))
  | wakeCas (r wakeup ok) : Move m i (.wakeCas r wakeup ok) (.wakeWord ok) (.wakeFlag r wakeup)
  | wakeFlag (r cur wakeup) : Move m i (.wakeFlag r (cur :: wakeup)) (.notWaiting cur) (.wakePost r cur wakeup)
  | wakePost (r cur wakeup) : Move m i (.wakePost r cur wakeup) (.semUnlock cur) (.wakeFlag r wakeup)
  | wakeDone (r) : Move m i (.wakeFlag r []) .silent (.afterWake r)
  -- `LWLockUpdateVar`
  | updateVar (val) : Move m i (.held .exclusive) (.setVar val) .updateLock
  | updateLock (h : m.word &&& lwFlagLocked = 0) : Move m i .updateLock .lockList .updateScan
  | updateScan (scan) (h : scan = scanUntilFree m.lwWaitMode m.waiters) :
      Move m i .updateScan (.takeOff scan) (.updateUnlock scan.wakeup)
  | updateUnlock (wakeup) : Move m i (.updateUnlock wakeup) .unlockList (.wakeFlag .updated wakeup)
  -- `LWLockReleaseClearVar` and `LWLockRelease`
  | clearVar (val) : Move m i (.held .exclusive) (.setVar val) (.releasing .exclusive)
  | release (mode) : Move m i (.held mode) .silent (.releasing mode)
  | releaseShared (h : checkWaiters (m.word - lwValShared) = false) : Move m i (.releasing .shared) .subShared .idle
  | releaseSharedWake (h : checkWaiters (m.word - lwValShared) = true) :
      Move m i (.releasing .shared) .subShared (.wakeLock .released)
  | releaseExclusive (h : checkWaiters (m.word - lwValExclusive) = false) :
      Move m i (.releasing .exclusive) .subExclusive .idle
  | releaseExclusiveWake (h : checkWaiters (m.word - lwValExclusive) = true) :
      Move m i (.releasing .exclusive) .subExclusive (.wakeLock .released)

structure State (ι : Type) where
  mem : Mem ι
  pc : ι → Pc ι

/-- A lock just initialised; the variable may have any value. -/
def initial (ι : Type) (var : UInt64) : State ι where
  mem := ⟨lwFlagReleaseOk, [], fun _ => .notWaiting, fun _ => .exclusive, fun _ => 0, var⟩
  pc := fun _ => .idle

inductive Reachable : State ι → Prop
  | init (var) : Reachable (initial ι var)
  | step {s : State ι} {i e p} (h : Reachable s) (hmove : Move s.mem i (s.pc i) e p) :
      Reachable ⟨s.mem.act i e, Function.update s.pc i p⟩

/-! Where a process is, by what the others may rely on. -/

/-- What a process that wakes others has of the lock. -/
def Ret.mode : Ret → Option Mode
  | updated => some .exclusive
  | _ => none

/-- What a process has of the lock. -/
def Pc.mode : Pc ι → Option Mode
  | held mode | releasing mode => some mode
  | dequeue c _ | dequeueList c _ | dequeueFlag c _ _ | dequeueUnlock c _ _ | dequeueClear c _
  | dequeueOk c _ | dequeueSleep c _ _ | dequeueCheck c _ _ | dequeueRepay c _ _ => c.mode
  | repay mode _ => mode
  | updateLock | updateScan | updateUnlock _ => some .exclusive
  | wakeLock r | wakeScan r | wakeCas r _ _ | wakeFlag r _ | wakePost r _ _ => r.mode
  | _ => none

/-- A shared attempt that has not yet backed out. -/
def Pc.backsOut : Pc ι → Bool
  | backout _ _ _ => true
  | _ => false

/-- The process has the lock of the wait list. -/
def Pc.hasList : Pc ι → Bool
  | queueFlag _ _ | queuePush _ _ | queueUnlock _ _ | dequeueList _ _ | dequeueFlag _ _ _
  | dequeueUnlock _ _ _ | wakeScan _ | wakeCas _ _ _ | updateScan | updateUnlock _ => true
  | _ => false

/-- The process is inside `LWLockWakeup`, or wakes the processes that an update took off the list. -/
def Pc.wakes : Pc ι → Bool
  | wakeLock _ | wakeScan _ | wakeCas _ _ _ | wakeFlag _ _ | wakePost _ _ _ => true
  | _ => false

end LwLock
