import Pgrust.HeldLocks
import Pgrust.WalPositions
import Pgrust.XLogAssemble

/-!
Insertion into the WAL as a system of threads: backends in `insert_record` and `XLogInsertRecord`,
whoever changes the shared settings under all insertion locks, and callers of
`WaitXLogInsertionsToFinish`. A step is one access to shared memory, a lock operation, or the
reservation under its spinlock. `insertingAt` and the holders of the eight locks are shared; the
log of reserved records and how far each has been copied is kept along.
-/

namespace WalInsertion

open XLogAssemble WalPositions
open Function (update update_self update_of_ne)

def rmXlogId : UInt8 := 0

def xlogSwitch : UInt8 := 0x40

def xlogCheckpointRedo : UInt8 := 0xE0

def xlrInfoMask : UInt8 := 0x0F

/-- What `insertingAt` says on the locks that carry no progress. -/
def insertingAtMax : Nat := 2 ^ 64 - 1

inductive RecordClass
  | normal
  | specialSwitch
  | specialCheckpoint
  deriving DecidableEq

def recordClass (rmid info : UInt8) : RecordClass :=
  if rmid = rmXlogId then
    if info &&& ~~~xlrInfoMask = xlogSwitch then .specialSwitch
    else if info &&& ~~~xlrInfoMask = xlogCheckpointRedo then .specialCheckpoint
    else .normal
  else .normal

/-- The arguments of `insert_record`. Switch and checkpoint-redo records refer to no blocks. -/
structure Request where
  rmid : UInt8
  info : UInt8
  recordFlags : UInt8
  mainData : List (List UInt8)
  blocks : List RegBlock
  special_blocks : recordClass rmid info ≠ .normal → blocks = []

def Request.cls (req : Request) : RecordClass := recordClass req.rmid req.info

/-- A record assembled for a request with some values of the redo pointer and of the page-write
setting. -/
structure Attempt where
  req : Request
  session : Session
  redo : Nat
  writes : Bool
  asm : Assembled
  made : assemble session req.rmid req.info redo writes req.recordFlags req.mainData req.blocks = .ok asm

/-- One of the eight insertion locks. -/
abbrev LockNo := Fin 8

scoped instance eightLocks : NeZero 8 := ⟨by decide⟩

/-- What a backend holds while it inserts: one lock, or all of them. -/
inductive Hold
  | one (i : LockNo)
  | all
  deriving DecidableEq

/-- The lock whose `insertingAt` carries the progress. -/
def Hold.progress : Hold → LockNo
  | one i => i
  | all => 7

/-- The lock that `WALInsertLockRelease` starts with. -/
def Hold.first : Hold → LockNo
  | one i => i
  | all => 0

/-- Changes of the shared settings that are made under all insertion locks. -/
inductive Setting
  | fullPageWrites (on : Bool)
  | backupStart
  | backupStop
  | redo (ptr : Nat)

/-- What all locks are taken for. -/
inductive Errand
  | insert (a : Attempt)
  | set (c : Setting)

/-- Where a backend is. -/
inductive Pc
  | idle
  | assembling (req : Request)
  | acquire (a : Attempt)
  | loadRedo (a : Attempt) (i : LockNo)
  | loadWrites (a : Attempt) (i : LockNo)
  | loadBackups (a : Attempt) (i : LockNo) (fpw : Bool)
  | check (a : Attempt) (i : LockNo)
  | reserve (a : Attempt) (i : LockNo)
  | lockAll (e : Errand) (j : LockNo)
  | markAll (e : Errand) (j : LockNo)
  | critical (e : Errand)
  | storeRedo (k start stop : Nat)
  | copy (h : Hold) (k stop pos : Nat) (mapped : Bool)
  | release (h : Hold) (j : LockNo) (cleared : Bool) (again : Option Request)

/-- A backend with its own copies of the redo pointer and of the page-write setting. -/
structure Backend where
  redoRecPtr : Nat
  doPageWrites : Bool
  pc : Pc

/-- A reserved record: its attempt, the values in force at the reservation and those its backend had
read, and the place in the log. -/
structure Entry (ι : Type) where
  attempt : Attempt
  redo : Nat
  writes : Bool
  seenRedo : Nat
  seenWrites : Bool
  owner : ι
  hold : Hold
  startByte : Nat
  stopByte : Nat
  start : Nat
  stop : Nat

/-- A call of `WaitXLogInsertionsToFinish(upto)`; `reserved` is the reserved end when it was called,
`n` counts the records reserved when it read that end itself. -/
inductive Waiter
  | idle
  | called (upto reserved : Nat)
  | sample (upto reserved : Nat)
  | wait (upto reserved cap finished n : Nat) (j : LockNo) (seen : Nat)
  | load (upto reserved finished n : Nat)
  | advance (upto reserved finished n cur : Nat)
  | returned (upto reserved p : Nat)

/-- `XLogCtl`, the log, the backends `ι` and the waiting threads `κ`. -/
structure State (ι κ : Type) where
  redoRecPtr : Nat
  fullPageWrites : Bool
  runningBackups : Int
  currBytePos : Nat
  prevBytePos : Nat
  holder : LockNo → Option ι
  insertingAt : LockNo → Nat
  logInsertResult : Nat
  log : List (Entry ι)
  copied : Nat → Nat
  backend : ι → Backend
  waiter : κ → Waiter

variable {ι κ : Type}

/-- Full page writes are in force. -/
def State.writes (s : State ι κ) : Bool := s.fullPageWrites || decide (0 < s.runningBackups)

def State.pc (s : State ι κ) (t : ι) : Pc := (s.backend t).pc

/-- The end of the reserved WAL. -/
def State.reservedEnd (seg : WalSegSize) (s : State ι κ) : Nat := seg.xLogBytePosToEndRecPtr s.currBytePos

/-- A reserved range, in byte positions and in pointers. -/
structure Slot where
  startByte : Nat
  stopByte : Nat
  start : Nat
  stop : Nat

def reserveXLogInsertLocation (seg : WalSegSize) (currBytePos size : Nat) : Slot where
  startByte := currBytePos
  stopByte := currBytePos + ByteImage.alignTo 8 size
  start := seg.xLogBytePosToRecPtr currBytePos
  stop := seg.xLogBytePosToEndRecPtr (currBytePos + ByteImage.alignTo 8 size)

/-- Nothing is reserved at the start of a segment; else the rest of the segment is. -/
def reserveXLogSwitch (seg : WalSegSize) (currBytePos : Nat) : Option Slot :=
  if seg.xLogSegmentOffset (seg.xLogBytePosToEndRecPtr currBytePos) = 0 then none
  else
    let endbytepos := currBytePos + ByteImage.alignTo 8 sizeOfXLogRecord
    let endPos := seg.xLogBytePosToEndRecPtr endbytepos
    let segleft := seg.size - seg.xLogSegmentOffset endPos
    if segleft ≠ seg.size then
      some ⟨currBytePos, seg.xLogRecPtrToBytePos (endPos + segleft),
        seg.xLogBytePosToRecPtr currBytePos, endPos + segleft⟩
    else some ⟨currBytePos, endbytepos, seg.xLogBytePosToRecPtr currBytePos, endPos⟩

/-- What `GetXLogBuffer` publishes before it initialises the page of `ptr`: behind a page header
nothing of the page has been written, so the start of the page is published. -/
def initializedUpto (seg : WalSegSize) (ptr : Nat) : Nat :=
  if ptr % xlogBlcksz = sizeOfXLogShortPHD ∧ xlogBlcksz < seg.xLogSegmentOffset ptr then
    ptr - sizeOfXLogShortPHD
  else if ptr % xlogBlcksz = sizeOfXLogLongPHD ∧ seg.xLogSegmentOffset ptr < xlogBlcksz then
    ptr - sizeOfXLogLongPHD
  else ptr

/-- The test of `XLogInsertRecord` that sends a record back to be assembled again. -/
def Attempt.stale (a : Attempt) (redo : Nat) (writes : Bool) : Bool :=
  writes && (!a.writes || (a.asm.fpwLsn != invalidXLogRecPtr && decide (a.asm.fpwLsn ≤ redo)))

/-- What a backend's step does to what is shared. -/
inductive Effect (ι : Type)
  | silent
  | acquire (i : LockNo)
  | free (i : LockNo)
  | setVar (i : LockNo) (v : Nat)
  | reserve (e : Entry ι)
  | copyTo (k pos : Nat)
  | change (c : Setting)

def State.set (s : State ι κ) : Setting → State ι κ
  | .fullPageWrites on => { s with fullPageWrites := on }
  | .backupStart => { s with runningBackups := s.runningBackups + 1 }
  | .backupStop => { s with runningBackups := s.runningBackups - 1 }
  | .redo ptr => { s with redoRecPtr := ptr }

/-- The backend's own copy after a change it made. -/
def Setting.local (b : Backend) : Setting → Nat
  | .redo ptr => ptr
  | _ => b.redoRecPtr

/-- The entry of a record that backend `t` reserves. -/
def State.entry (s : State ι κ) (t : ι) (b : Backend) (a : Attempt) (h : Hold) (slot : Slot) : Entry ι where
  attempt := a
  redo := s.redoRecPtr
  writes := s.writes
  seenRedo := b.redoRecPtr
  seenWrites := b.doPageWrites
  owner := t
  hold := h
  startByte := slot.startByte
  stopByte := slot.stopByte
  start := slot.start
  stop := slot.stop

/-- The place after the last lock of a release. -/
def Pc.back : Option Request → Pc
  | some req => .assembling req
  | none => .idle

/-- The steps of backend `t`. -/
inductive Move (seg : WalSegSize) (s : State ι κ) (t : ι) : Backend → Effect ι → Backend → Prop
  -- between insertions the own copies may be refreshed
  | refresh (r w r' w') : Move seg s t ⟨r, w, .idle⟩ .silent ⟨r', w', .idle⟩
  -- `insert_record`
  | begin (r w req) : Move seg s t ⟨r, w, .idle⟩ .silent ⟨r, w, .assembling req⟩
  | refused (r w req) (session : Session) (e)
      (h : assemble session req.rmid req.info r w req.recordFlags req.mainData req.blocks = .error e) :
      Move seg s t ⟨r, w, .assembling req⟩ .silent ⟨r, w, .idle⟩
  | assembled (r w) (a : Attempt) (hr : a.redo = r) (hw : a.writes = w) (h : a.req.cls = .normal) :
      Move seg s t ⟨r, w, .assembling a.req⟩ .silent ⟨r, w, .acquire a⟩
  | special (r w) (a : Attempt) (hr : a.redo = r) (hw : a.writes = w) (h : a.req.cls ≠ .normal) :
      Move seg s t ⟨r, w, .assembling a.req⟩ .silent ⟨r, w, .lockAll (.insert a) 0⟩
  -- `XLogInsertRecord`, a normal record
  | acquire (r w a i) (h : s.holder i = none) : Move seg s t ⟨r, w, .acquire a⟩ (.acquire i) ⟨r, w, .loadRedo a i⟩
  | loadRedo (r w a i) : Move seg s t ⟨r, w, .loadRedo a i⟩ .silent ⟨s.redoRecPtr, w, .loadWrites a i⟩
  | loadWrites (r w a i) : Move seg s t ⟨r, w, .loadWrites a i⟩ .silent ⟨r, w, .loadBackups a i s.fullPageWrites⟩
  | loadBackups (r w a i fpw) :
      Move seg s t ⟨r, w, .loadBackups a i fpw⟩ .silent ⟨r, fpw || decide (0 < s.runningBackups), .check a i⟩
  | stale (r w a i) (h : a.stale r w = true) :
      Move seg s t ⟨r, w, .check a i⟩ .silent ⟨r, w, .release (.one i) i false (some a.req)⟩
  | fresh (r w a i) (h : a.stale r w = false) : Move seg s t ⟨r, w, .check a i⟩ .silent ⟨r, w, .reserve a i⟩
  | reserve (r w a i slot) (h : slot = reserveXLogInsertLocation seg s.currBytePos a.asm.header.totLen) :
      Move seg s t ⟨r, w, .reserve a i⟩ (.reserve (s.entry t ⟨r, w, .reserve a i⟩ a (.one i) slot))
        ⟨r, w, .copy (.one i) s.log.length slot.stop slot.start false⟩
  -- `WALInsertLockAcquireExclusive`
  | errand (r w c) : Move seg s t ⟨r, w, .idle⟩ .silent ⟨r, w, .lockAll (.set c) 0⟩
  | lockAll (r w e j) (h : s.holder j = none) (hj : j ≠ 7) :
      Move seg s t ⟨r, w, .lockAll e j⟩ (.acquire j) ⟨r, w, .markAll e j⟩
  | lockLast (r w e) (h : s.holder 7 = none) : Move seg s t ⟨r, w, .lockAll e 7⟩ (.acquire 7) ⟨r, w, .critical e⟩
  | markAll (r w e j) (hj : j ≠ 7) :
      Move seg s t ⟨r, w, .markAll e j⟩ (.setVar j insertingAtMax) ⟨r, w, .lockAll e (j + 1)⟩
  -- what is done under all locks
  | change (r w c) :
      Move seg s t ⟨r, w, .critical (.set c)⟩ (.change c) ⟨c.local ⟨r, w, .idle⟩, w, .release .all 0 false none⟩
  | switchNone (r w a) (hc : a.req.cls = .specialSwitch) (h : reserveXLogSwitch seg s.currBytePos = none) :
      Move seg s t ⟨r, w, .critical (.insert a)⟩ .silent ⟨r, w, .release .all 0 false none⟩
  | switch (r w a slot) (hc : a.req.cls = .specialSwitch) (h : reserveXLogSwitch seg s.currBytePos = some slot) :
      Move seg s t ⟨r, w, .critical (.insert a)⟩ (.reserve (s.entry t ⟨r, w, .critical (.insert a)⟩ a .all slot))
        ⟨r, w, .copy .all s.log.length slot.stop slot.start false⟩
  | checkpoint (r w a slot) (hc : a.req.cls = .specialCheckpoint)
      (h : slot = reserveXLogInsertLocation seg s.currBytePos a.asm.header.totLen) :
      Move seg s t ⟨r, w, .critical (.insert a)⟩ (.reserve (s.entry t ⟨r, w, .critical (.insert a)⟩ a .all slot))
        ⟨r, w, .storeRedo s.log.length slot.start slot.stop⟩
  | storeRedo (r w k start stop) :
      Move seg s t ⟨r, w, .storeRedo k start stop⟩ (.change (.redo start)) ⟨start, w, .copy .all k stop start false⟩
  -- `CopyXLogRecordToWAL`, page by page
  | publish (r w h k stop pos) :
      Move seg s t ⟨r, w, .copy h k stop pos false⟩ (.setVar h.progress (initializedUpto seg pos))
        ⟨r, w, .copy h k stop pos true⟩
  | cached (r w h k stop pos) :
      Move seg s t ⟨r, w, .copy h k stop pos false⟩ .silent ⟨r, w, .copy h k stop pos true⟩
  | fill (r w h k stop pos pos') (hlow : pos ≤ pos') (hstop : pos' ≤ stop)
      (hpage : pos' ≤ (pos / xlogBlcksz + 1) * xlogBlcksz) :
      Move seg s t ⟨r, w, .copy h k stop pos true⟩ (.copyTo k pos')
        ⟨r, w, .copy h k stop pos' (decide (pos' % xlogBlcksz ≠ 0))⟩
  | copied (r w h k pos mapped) :
      Move seg s t ⟨r, w, .copy h k pos pos mapped⟩ .silent ⟨r, w, .release h h.first false none⟩
  -- `WALInsertLockRelease`
  | clear (r w h j again) :
      Move seg s t ⟨r, w, .release h j false again⟩ (.setVar j 0) ⟨r, w, .release h j true again⟩
  | freeOne (r w i again) : Move seg s t ⟨r, w, .release (.one i) i true again⟩ (.free i) ⟨r, w, .back again⟩
  | freeNext (r w j again) (hj : j ≠ 7) :
      Move seg s t ⟨r, w, .release .all j true again⟩ (.free j) ⟨r, w, .release .all (j + 1) false again⟩
  | freeLast (r w again) : Move seg s t ⟨r, w, .release .all 7 true again⟩ (.free 7) ⟨r, w, .back again⟩

/-- The next lock to look at, or the end of the loop over the locks. -/
def Waiter.next (upto reserved cap finished n : Nat) (j : LockNo) : Waiter :=
  if j = 7 then .load upto reserved finished n else .wait upto reserved cap finished n (j + 1) 0

/-- `finished_upto` after a lock whose `insertingAt` was seen as `v`. -/
def lower (finished v : Nat) : Nat := if v ≠ invalidXLogRecPtr ∧ v < finished then v else finished

/-- The steps of a waiting thread; some of them store `logInsertResult`. -/
inductive WaiterMove (seg : WalSegSize) (s : State ι κ) : Waiter → Option Nat → Waiter → Prop
  | call (upto) : WaiterMove seg s .idle none (.called upto (s.reservedEnd seg))
  | early (upto reserved) (h : upto ≤ s.logInsertResult) :
      WaiterMove seg s (.called upto reserved) none (.returned upto reserved s.logInsertResult)
  | late (upto reserved) (h : s.logInsertResult < upto) :
      WaiterMove seg s (.called upto reserved) none (.sample upto reserved)
  | sample (upto reserved) : WaiterMove seg s (.sample upto reserved) none
        (.wait upto reserved (if s.reservedEnd seg < upto then s.reservedEnd seg else upto)
          (s.reservedEnd seg) s.log.length 0 0)
  -- `LWLockWaitForVar` saw the lock free, or another value than the one it was given
  | free (upto reserved cap finished n j seen) (h : s.holder j = none) :
      WaiterMove seg s (.wait upto reserved cap finished n j seen) none (.next upto reserved cap finished n j)
  | below (upto reserved cap finished n j seen) (h : s.insertingAt j ≠ seen) (hcap : s.insertingAt j < cap) :
      WaiterMove seg s (.wait upto reserved cap finished n j seen) none
        (.wait upto reserved cap finished n j (s.insertingAt j))
  | passed (upto reserved cap finished n j seen) (h : s.insertingAt j ≠ seen) (hcap : cap ≤ s.insertingAt j) :
      WaiterMove seg s (.wait upto reserved cap finished n j seen) none
        (.next upto reserved cap (lower finished (s.insertingAt j)) n j)
  | load (upto reserved finished n) :
      WaiterMove seg s (.load upto reserved finished n) none (.advance upto reserved finished n s.logInsertResult)
  | reached (upto reserved finished n cur) (h : finished ≤ cur) :
      WaiterMove seg s (.advance upto reserved finished n cur) none (.returned upto reserved cur)
  | swap (upto reserved finished n cur) (h : cur < finished) (hcur : s.logInsertResult = cur) :
      WaiterMove seg s (.advance upto reserved finished n cur) (some finished) (.returned upto reserved finished)
  | lost (upto reserved finished n cur) (h : cur < finished) (hcur : s.logInsertResult ≠ cur) :
      WaiterMove seg s (.advance upto reserved finished n cur) none
        (.advance upto reserved finished n s.logInsertResult)
  | again (upto reserved p) : WaiterMove seg s (.returned upto reserved p) none .idle

section Runs

variable [DecidableEq ι] [DecidableEq κ]

def State.act (s : State ι κ) (t : ι) : Effect ι → State ι κ
  | .silent => s
  | .acquire i => { s with holder := update s.holder i (some t) }
  | .free i => { s with holder := update s.holder i none }
  | .setVar i v => { s with insertingAt := update s.insertingAt i v }
  | .reserve e =>
    { s with
      currBytePos := e.stopByte
      prevBytePos := e.startByte
      log := s.log ++ [e]
      copied := update s.copied s.log.length e.start }
  | .copyTo k pos => { s with copied := update s.copied k pos }
  | .change c => s.set c

def State.put (s : State ι κ) (t : ι) (b : Backend) : State ι κ := { s with backend := update s.backend t b }

def State.putWaiter (s : State ι κ) (x : κ) (w : Waiter) : State ι κ := { s with waiter := update s.waiter x w }

def State.setResult (s : State ι κ) : Option Nat → State ι κ
  | some v => { s with logInsertResult := v }
  | none => s

inductive Step (seg : WalSegSize) : State ι κ → State ι κ → Prop
  | backend {s : State ι κ} (t : ι) {effect : Effect ι} {b : Backend}
      (h : Move seg s t (s.backend t) effect b) : Step seg s ((s.act t effect).put t b)
  | waiter {s : State ι κ} (x : κ) {effect : Option Nat} {w : Waiter} (h : WaiterMove seg s (s.waiter x) effect w) :
      Step seg s ((s.setResult effect).putWaiter x w)

/-- After startup: no lock is held, nothing has been inserted, and `logInsertResult` is not beyond the
end of the WAL. -/
structure Initial (seg : WalSegSize) (s : State ι κ) : Prop where
  free : ∀ i, s.holder i = none
  clear : ∀ i, s.insertingAt i = 0
  result : s.logInsertResult ≤ s.reservedEnd seg
  log : s.log = []
  backend : ∀ t, s.pc t = .idle
  waiter : ∀ x, s.waiter x = .idle

/-- The states of the runs from an initial state. -/
inductive Reachable (seg : WalSegSize) (init : State ι κ) : State ι κ → Prop
  | init : Reachable seg init init
  | step {s s' : State ι κ} : Reachable seg init s → Step seg s s' → Reachable seg init s'

end Runs

/-- The locks a backend has at a place. -/
def Pc.holds : Pc → LockNo → Bool
  | .idle, _ => false
  | .assembling _, _ => false
  | .acquire _, _ => false
  | .loadRedo _ i, l => decide (l = i)
  | .loadWrites _ i, l => decide (l = i)
  | .loadBackups _ i _, l => decide (l = i)
  | .check _ i, l => decide (l = i)
  | .reserve _ i, l => decide (l = i)
  | .lockAll _ j, l => decide (l < j)
  | .markAll _ j, l => decide (l ≤ j)
  | .critical _, _ => true
  | .storeRedo _ _ _, _ => true
  | .copy (.one i) _ _ _ _, l => decide (l = i)
  | .copy .all _ _ _ _, _ => true
  | .release (.one _) j _ _, l => decide (l = j)
  | .release .all j _ _, l => decide (j ≤ l)

/-- How a step changes the locks its backend has. -/
def Effect.Holds (before after : LockNo → Bool) : Effect ι → Prop
  | .acquire i => ∀ l, after l = (before l || decide (l = i))
  | .free i => before i = true ∧ ∀ l, after l = (before l && decide (l ≠ i))
  | _ => after = before

section Locks

variable {seg : WalSegSize} {s : State ι κ} {t : ι} {b : Backend} {effect : Effect ι}

theorem back_holds (again : Option Request) (l : LockNo) : (Pc.back again).holds l = false := by
  cases again <;> rfl

theorem first_release (h : Hold) : (Pc.release h h.first false none).holds = (Pc.copy h 0 0 0 false).holds := by
  cases h with
  | one => rfl
  | all =>
    funext l
    exact decide_eq_true (Fin.zero_le l)

theorem copy_holds (h : Hold) (k stop pos k' stop' pos' : Nat) (m m' : Bool) :
    (Pc.copy h k stop pos m).holds = (Pc.copy h k' stop' pos' m').holds := by
  cases h <;> rfl

theorem release_holds (h : Hold) (j : LockNo) (c c' : Bool) (again : Option Request) :
    (Pc.release h j c again).holds = (Pc.release h j c' again).holds := by
  cases h <;> rfl

theorem lt_succ_lock : ∀ j l : LockNo, j ≠ 7 → decide (l < j + 1) = decide (l ≤ j) := by decide

theorem le_lock : ∀ j l : LockNo, decide (l ≤ j) = (decide (l < j) || decide (l = j)) := by decide

theorem lt_last_lock : ∀ l : LockNo, true = (decide (l < 7) || decide (l = 7)) := by decide

theorem succ_le_lock : ∀ j l : LockNo, j ≠ 7 → decide (j + 1 ≤ l) = (decide (j ≤ l) && decide (l ≠ j)) := by decide

theorem last_le_lock : ∀ l : LockNo, false = (decide (7 ≤ l) && decide (l ≠ 7)) := by decide

theorem Move.holds (h : Move seg s t b effect b') : effect.Holds b.pc.holds b'.pc.holds := by
  cases h with
  | acquire =>
    intro l
    exact (Bool.false_or _).symm
  | reserve => rfl
  | lockAll r w e j =>
    intro l
    exact le_lock j l
  | lockLast =>
    intro l
    exact lt_last_lock l
  | markAll r w e j hj =>
    funext l
    exact lt_succ_lock j l hj
  | change | switchNone =>
    funext l
    exact decide_eq_true (Fin.zero_le l)
  | special | errand =>
    funext l
    exact decide_eq_false (Fin.not_lt_zero l)
  | publish | cached | fill => exact copy_holds ..
  | copied r w h => exact (first_release h).trans (copy_holds ..)
  | clear => exact release_holds ..
  | freeOne r w i =>
    refine ⟨decide_eq_true rfl, ?_⟩
    intro l
    rw [back_holds]
    by_cases hl : l = i
    · rw [decide_eq_false (not_not.mpr hl), Bool.and_false]
    · exact (Bool.and_eq_false_imp.mpr (fun heq => absurd (of_decide_eq_true heq) hl)).symm
  | freeNext r w j again hj =>
    refine ⟨decide_eq_true (Fin.le_refl j), ?_⟩
    intro l
    exact succ_le_lock j l hj
  | freeLast =>
    refine ⟨rfl, ?_⟩
    intro l
    rw [back_holds]
    exact last_le_lock l
  | _ => rfl

theorem Move.acquires (h : Move seg s t b (.acquire i) b') : s.holder i = none := by
  cases h with
  | acquire r w a i hfree => exact hfree
  | lockAll r w e j hfree => exact hfree
  | lockLast r w e hfree => exact hfree

end Locks

section Frame

variable {seg : WalSegSize} {init s s' : State ι κ} {t : ι} {b : Backend} {effect : Effect ι}

section

variable (s : State ι κ)

theorem act_backend (t : ι) (effect) : (s.act t effect).backend = s.backend := by
  cases effect with
  | change c => cases c <;> rfl
  | _ => rfl

theorem act_waiter (t : ι) (effect) : (s.act t effect).waiter = s.waiter := by
  cases effect with
  | change c => cases c <;> rfl
  | _ => rfl

@[simp] theorem acquire_holder (t : ι) (i : LockNo) :
    (s.act t (.acquire i)).holder = update s.holder i (some t) := rfl

@[simp] theorem free_holder (t : ι) (i : LockNo) : (s.act t (.free i)).holder = update s.holder i none := rfl

@[simp] theorem setVar_insertingAt (t : ι) (i : LockNo) (v : Nat) :
    (s.act t (.setVar i v)).insertingAt = update s.insertingAt i v := rfl

theorem set_holder (c : Setting) : (s.set c).holder = s.holder := by
  cases c <;> rfl

end

/-- The locks say the same as the places of the backends. -/
def State.LocksAgree (s : State ι κ) : Prop := HeldLocks.Agree s.holder (fun t l => (s.pc t).holds l)

theorem Initial.locksAgree (h : Initial seg s) : s.LocksAgree := by
  intro l t
  change s.holder l = some t ↔ (s.pc t).holds l = true
  rw [h.free, h.backend]
  exact ⟨nofun, nofun⟩

/-- A backend that has all the locks is alone under them. -/
theorem State.LocksAgree.alone (h : s.LocksAgree) (hall : ∀ l, (s.pc t).holds l = true)
    (hu : (s.pc u).holds l = true) : u = t :=
  HeldLocks.Agree.unique h hu (hall l)

/-- The settings change only under all the locks. -/
theorem Move.changes (h : Move seg s t b (.change c) b') : ∀ l, b.pc.holds l = true := by
  intro l
  cases h <;> rfl

theorem putWaiter_self [DecidableEq κ] (s : State ι κ) (x : κ) (w : Waiter) : (s.putWaiter x w).waiter x = w :=
  update_self ..

theorem putWaiter_other [DecidableEq κ] (s : State ι κ) (w : Waiter) (hy : y ≠ x) :
    (s.putWaiter x w).waiter y = s.waiter y :=
  update_of_ne hy ..

variable [DecidableEq ι]

theorem after_self (s : State ι κ) (t : ι) (effect : Effect ι) (b : Backend) :
    ((s.act t effect).put t b).backend t = b :=
  update_self ..

theorem after_other (s : State ι κ) (effect : Effect ι) (b : Backend) (hu : u ≠ t) :
    ((s.act t effect).put t b).backend u = s.backend u := by
  rw [State.put, act_backend]
  exact update_of_ne hu ..

theorem State.LocksAgree.backend (h : s.LocksAgree) (hmove : Move seg s t (s.backend t) effect b) :
    ((s.act t effect).put t b).LocksAgree := by
  have hholds := hmove.holds
  have hself : (((s.act t effect).put t b).pc t).holds = b.pc.holds := by
    rw [State.pc, after_self]
  have hother : ∀ u, u ≠ t → ∀ l, (((s.act t effect).put t b).pc u).holds l = (s.pc u).holds l := by
    intro u hu l
    rw [State.pc, after_other s effect b hu]
    rfl
  have hkeep : b.pc.holds = (s.backend t).pc.holds →
      ∀ u l, (((s.act t effect).put t b).pc u).holds l = (s.pc u).holds l := by
    intro hsame u l
    obtain rfl | hu := eq_or_ne u t
    · rw [hself, hsame]
      rfl
    · exact hother u hu l
  cases effect with
  | acquire =>
    apply HeldLocks.Agree.acquire h hmove.acquires
    · intro l
      rw [hself]
      exact hholds l
    · exact hother
  | free =>
    apply HeldLocks.Agree.release h hholds.1
    · intro l
      rw [hself]
      exact hholds.2 l
    · exact hother
  | change c =>
    have hsame := h.keep (hkeep hholds)
    rw [← set_holder s c] at hsame
    exact hsame
  | _ => exact h.keep (hkeep hholds)

end Frame

end WalInsertion
