import Mathlib.Algebra.Group.Nat.Defs
import Pgrust.ThreadCount

/-!
The eventcount on which idle workers park. A publisher of work bumps the epoch and then skips the
wake-up where it sees a worker searching; a worker that parks gives up its searching mark and then
looks at the epoch again. Threads interleave at every access to the shared words; what is touched
under a mutex alone is one step of its holder.
-/
namespace ParkLot

open ThreadCount List
open Function (update update_self update_of_ne update_apply)

/-- A worker. `seen` is the epoch that it has read. It marks itself as searching, looks for work,
and goes on in `spin_found_work`, in `spin_abandon` or in `park_worker`; where it goes on after a
wake-up of another worker is `next`: with an epoch it had read, or from the top. -/
inductive WorkerPc where
  | start
  | read (seen : Nat)
  | marking
  | marked (seen : Nat)
  | found
  | looked (seen : Nat)
  | dropped (next : Option Nat)
  | waking (next : Option Nat)
  | popping (next : Option Nat)
  | away (next : Option Nat)
  | parkLocked (seen : Nat)
  | parkDropped (seen : Nat)
  | parkMatched (seen : Nat)
  | parkCheck (seen : Nat)
  | parkEpoch (seen : Nat)
  | parkWait (seen : Nat)
  | asleep (seen : Nat)
  | relock (seen : Nat)
  | leave
  deriving DecidableEq

/-- A parker that uses `epoch` and `park`. -/
inductive LegacyPc where
  | start
  | read (seen : Nat)
  | locked (seen : Nat)
  | counting (seen : Nat)
  | counted (seen : Nat)
  | asleep (seen : Nat)
  | relock (seen : Nat)
  | relocked (seen : Nat)
  deriving DecidableEq

/-- The wake calls. The last one is for events that are no work. -/
inductive Kind where
  | work
  | all
  | legacy
  deriving DecidableEq

/-- A publisher: it makes an item visible and makes its wake call. `n` is the number of legacy parkers
that it has read. -/
inductive PublisherPc where
  | idle
  | visible (kind : Kind)
  | bumped (kind : Kind)
  | counting (kind : Kind)
  | counted (kind : Kind) (n : Nat)
  | notified (kind : Kind)
  | waking
  | popping
  | waitAll
  | draining
  deriving DecidableEq

/-- The lot, the items that are visible and not claimed, and the threads: workers `ι`, legacy parkers
`κ` and publishers `π`. -/
structure State (ι κ π : Type) where
  epoch : Nat
  spinners : Nat
  items : Nat
  idle : Option (ι ⊕ π)
  stack : List ι
  wakes : Nat
  woken : ι → Bool
  m : Option (κ ⊕ π)
  legacyParked : Nat
  worker : ι → WorkerPc
  legacy : κ → LegacyPc
  publisher : π → PublisherPc

variable {ι κ π : Type}

section Steps

variable [DecidableEq ι] [DecidableEq κ] [DecidableEq π]

def State.init : State ι κ π :=
  { epoch := 0, spinners := 0, items := 0, idle := none, stack := [], wakes := 0
    woken := fun _ => false, m := none, legacyParked := 0, worker := fun _ => .start
    legacy := fun _ => .start, publisher := fun _ => .idle }

def State.setWorker (s : State ι κ π) (i : ι) (pc : WorkerPc) : State ι κ π :=
  { s with worker := update s.worker i pc }

def State.setLegacy (s : State ι κ π) (j : κ) (pc : LegacyPc) : State ι κ π :=
  { s with legacy := update s.legacy j pc }

def State.setPublisher (s : State ι κ π) (p : π) (pc : PublisherPc) : State ι κ π :=
  { s with publisher := update s.publisher p pc }

/-- A notification ends the wait. -/
def WorkerPc.notify : WorkerPc → WorkerPc
  | .asleep seen => .relock seen
  | pc => pc

def LegacyPc.notify : LegacyPc → LegacyPc
  | .asleep seen => .relock seen
  | pc => pc

/-- The worker that is woken, and those who stay: every fourth time the oldest, else the youngest. -/
def takeOne (wakes : Nat) (stack : List ι) : Option (ι × List ι) :=
  if wakes % 4 = 0 then
    match stack with
    | [] => none
    | i :: rest => some (i, rest)
  else stack.getLast?.map (fun i => (i, stack.dropLast))

/-- `wake_one_idle`, with the mutex held. -/
def State.wakeOneIdle (s : State ι κ π) : State ι κ π :=
  match takeOne ((s.wakes + 1) % 2 ^ 32) s.stack with
  | none => s
  | some (i, rest) =>
    { s with
      wakes := (s.wakes + 1) % 2 ^ 32
      stack := rest
      woken := update s.woken i true
      worker := update s.worker i (s.worker i).notify }

/-- The workers that `wake_all` finds on the stack. -/
def State.drain (s : State ι κ π) : State ι κ π :=
  { s with
    stack := []
    woken := fun i => if i ∈ s.stack then true else s.woken i
    worker := fun i => if i ∈ s.stack then (s.worker i).notify else s.worker i }

/-- What a worker's step does to what is shared. -/
inductive WorkerEffect where
  | silent
  | mark
  | unmark
  | claim
  | lock
  | unlock
  | push
  | pop
  | remove

def State.byWorker (s : State ι κ π) (i : ι) : WorkerEffect → State ι κ π
  | .silent => s
  | .mark => { s with spinners := s.spinners + 1 }
  | .unmark => { s with spinners := s.spinners - 1 }
  | .claim => { s with items := s.items - 1 }
  | .lock => { s with idle := some (.inl i) }
  | .unlock => { s with idle := none }
  | .push => { s with woken := update s.woken i false, stack := s.stack ++ [i] }
  | .pop => { s.wakeOneIdle with idle := none }
  | .remove => { s with stack := if s.woken i then s.stack else s.stack.erase i, idle := none }

/-- The steps of a worker. -/
inductive WorkerMove (s : State ι κ π) (i : ι) : WorkerPc → WorkerEffect → WorkerPc → Prop
  -- the worker loop: the epoch is read before the look, the mark is set on either side of that
  | readEpoch : WorkerMove s i .start .silent (.read s.epoch)
  | spinEnter (seen) : WorkerMove s i (.read seen) .mark (.marked seen)
  | spinFirst : WorkerMove s i .start .mark .marking
  | readMarked : WorkerMove s i .marking .silent (.marked s.epoch)
  | claim (seen) (h : 0 < s.items) : WorkerMove s i (.marked seen) .claim .found
  | lookNone (seen) (h : s.items = 0) : WorkerMove s i (.marked seen) .silent (.looked seen)
  -- `spin_found_work` and `spin_abandon`
  | foundWork : WorkerMove s i .found .unmark (.dropped none)
  | abandon (seen) : WorkerMove s i (.marked seen) .unmark (.dropped (some seen))
  | lastSpinner (next) (h : s.spinners = 0) : WorkerMove s i (.dropped next) .silent (.waking next)
  | otherSpinner (next) (h : s.spinners ≠ 0) : WorkerMove s i (.dropped next) .silent (.away next)
  | lockWake (next) (h : s.idle = none) : WorkerMove s i (.waking next) .lock (.popping next)
  | pop (next) : WorkerMove s i (.popping next) .pop (.away next)
  | resume (seen) : WorkerMove s i (.away (some seen)) .silent (.read seen)
  | again : WorkerMove s i (.away none) .silent .start
  -- `park_worker`
  | lockPark (seen) (h : s.idle = none) : WorkerMove s i (.looked seen) .lock (.parkLocked seen)
  | consume (seen) : WorkerMove s i (.parkLocked seen) .unmark (.parkDropped seen)
  | moved (seen) (h : s.epoch ≠ seen) : WorkerMove s i (.parkDropped seen) .unlock .start
  | same (seen) (h : s.epoch = seen) : WorkerMove s i (.parkDropped seen) .silent (.parkMatched seen)
  | push (seen) : WorkerMove s i (.parkMatched seen) .push (.parkCheck seen)
  | wasWoken (seen) (h : s.woken i = true) : WorkerMove s i (.parkCheck seen) .silent .leave
  | notWoken (seen) (h : s.woken i = false) : WorkerMove s i (.parkCheck seen) .silent (.parkEpoch seen)
  | epochMoved (seen) (h : s.epoch ≠ seen) : WorkerMove s i (.parkEpoch seen) .silent .leave
  | epochSame (seen) (h : s.epoch = seen) : WorkerMove s i (.parkEpoch seen) .silent (.parkWait seen)
  | wait (seen) : WorkerMove s i (.parkWait seen) .unlock (.asleep seen)
  | spurious (seen) : WorkerMove s i (.asleep seen) .silent (.relock seen)
  | relock (seen) (h : s.idle = none) : WorkerMove s i (.relock seen) .lock (.parkCheck seen)
  | leave : WorkerMove s i .leave .remove .start

inductive LegacyEffect where
  | silent
  | lock
  | unlock
  | enter
  | sleep
  | exit

def State.byLegacy (s : State ι κ π) (j : κ) : LegacyEffect → State ι κ π
  | .silent => s
  | .lock => { s with m := some (.inl j) }
  | .unlock => { s with m := none }
  | .enter => { s with legacyParked := s.legacyParked + 1 }
  | .sleep => { s with m := none }
  | .exit => { s with legacyParked := s.legacyParked - 1 }

/-- The steps of a legacy parker: `epoch`, something else, and `park`. -/
inductive LegacyMove (s : State ι κ π) (j : κ) : LegacyPc → LegacyEffect → LegacyPc → Prop
  | readEpoch : LegacyMove s j .start .silent (.read s.epoch)
  | skip (seen) : LegacyMove s j (.read seen) .silent .start
  | lock (seen) (h : s.m = none) : LegacyMove s j (.read seen) .lock (.locked seen)
  | moved (seen) (h : s.epoch ≠ seen) : LegacyMove s j (.locked seen) .unlock .start
  | same (seen) (h : s.epoch = seen) : LegacyMove s j (.locked seen) .silent (.counting seen)
  | enter (seen) : LegacyMove s j (.counting seen) .enter (.counted seen)
  | wait (seen) : LegacyMove s j (.counted seen) .sleep (.asleep seen)
  | spurious (seen) : LegacyMove s j (.asleep seen) .silent (.relock seen)
  | relock (seen) (h : s.m = none) : LegacyMove s j (.relock seen) .lock (.relocked seen)
  | exit (seen) : LegacyMove s j (.relocked seen) .exit (.locked seen)

inductive PublisherEffect where
  | silent
  | shows
  | bump
  | lockM
  | unlockM
  | notify
  | lock
  | pop
  | drain

def State.byPublisher (s : State ι κ π) (p : π) : PublisherEffect → State ι κ π
  | .silent => s
  | .shows => { s with items := s.items + 1 }
  | .bump => { s with epoch := s.epoch + 1 }
  | .lockM => { s with m := some (.inr p) }
  | .unlockM => { s with m := none }
  | .notify => { s with legacy := fun j => (s.legacy j).notify }
  | .lock => { s with idle := some (.inr p) }
  | .pop => { s.wakeOneIdle with idle := none }
  | .drain => { s.drain with idle := none }

/-- The steps of a publisher: `wake_work`, `wake_all` and `wake_legacy`. -/
inductive PublisherMove (s : State ι κ π) : PublisherPc → PublisherEffect → PublisherPc → Prop
  | work : PublisherMove s .idle .shows (.visible .work)
  | workAll : PublisherMove s .idle .shows (.visible .all)
  | event : PublisherMove s .idle .silent (.visible .legacy)
  | bump (kind) : PublisherMove s (.visible kind) .bump (.bumped kind)
  | lockM (kind) (h : s.m = none) : PublisherMove s (.bumped kind) .lockM (.counting kind)
  | unlockM (kind) : PublisherMove s (.counting kind) .unlockM (.counted kind s.legacyParked)
  -- `wake_all` notifies in any case, the others where someone was counted
  | notify (kind n) (h : kind = .all ∨ 0 < n) : PublisherMove s (.counted kind n) .notify (.notified kind)
  | skip (kind) (h : kind ≠ .all) : PublisherMove s (.counted kind 0) .silent (.notified kind)
  | elided (h : 0 < s.spinners) : PublisherMove s (.notified .work) .silent .idle
  | wakeOne (h : s.spinners = 0) : PublisherMove s (.notified .work) .silent .waking
  | lock (h : s.idle = none) : PublisherMove s .waking .lock .popping
  | pop : PublisherMove s .popping .pop .idle
  | wakeAll : PublisherMove s (.notified .all) .silent .waitAll
  | lockAll (h : s.idle = none) : PublisherMove s .waitAll .lock .draining
  | drain : PublisherMove s .draining .drain .idle
  | done : PublisherMove s (.notified .legacy) .silent .idle

/-- A step of the system: some thread's next step. -/
inductive Step : State ι κ π → State ι κ π → Prop
  | worker {s} (i) {e pc} (h : WorkerMove s i (s.worker i) e pc) : Step s ((s.byWorker i e).setWorker i pc)
  | legacy {s} (j) {e pc} (h : LegacyMove s j (s.legacy j) e pc) : Step s ((s.byLegacy j e).setLegacy j pc)
  | publisher {s} (p) {e pc} (h : PublisherMove s (s.publisher p) e pc) :
    Step s ((s.byPublisher p e).setPublisher p pc)

/-- The states that the runs reach. -/
inductive Reachable : State ι κ π → Prop
  | init : Reachable .init
  | step {s t} (h : Reachable s) (hstep : Step s t) : Reachable t

end Steps

/-! ### Places -/

/-- The worker holds a mark. -/
def WorkerPc.isMarked : WorkerPc → Bool
  | .marking | .marked _ | .found | .looked _ | .parkLocked _ => true
  | _ => false

/-- The worker holds the mutex of the stack. -/
def WorkerPc.holdsIdle : WorkerPc → Bool
  | .popping _ | .parkLocked _ | .parkDropped _ | .parkMatched _ | .parkCheck _ | .parkEpoch _
  | .parkWait _ | .leave => true
  | _ => false

/-- The worker has put itself on the stack. -/
def WorkerPc.registered : WorkerPc → Bool
  | .parkCheck _ | .parkEpoch _ | .parkWait _ | .asleep _ | .relock _ | .leave => true
  | _ => false

/-- The epoch that the worker has read. -/
def WorkerPc.seen? : WorkerPc → Option Nat
  | .read seen | .marked seen | .looked seen | .parkLocked seen | .parkDropped seen
  | .parkMatched seen | .parkCheck seen | .parkEpoch seen | .parkWait seen | .asleep seen
  | .relock seen => some seen
  | .dropped next | .waking next | .popping next | .away next => next
  | _ => none

/-- The same, for a worker that has found nothing since. -/
def WorkerPc.sought : WorkerPc → Option Nat
  | .looked seen | .parkLocked seen | .parkDropped seen | .parkMatched seen | .parkCheck seen
  | .parkEpoch seen | .parkWait seen | .asleep seen | .relock seen => some seen
  | _ => none

/-- The worker waits and was not woken. -/
def WorkerPc.isAsleep : WorkerPc → Bool
  | .asleep _ => true
  | _ => false

/-- The publisher has made its item visible and not yet bumped the epoch. -/
def PublisherPc.showing : PublisherPc → Bool
  | .visible .work | .visible .all => true
  | _ => false

/-- The publisher of an item is not through with its wake call. -/
def PublisherPc.active : PublisherPc → Bool
  | .idle => false
  | .visible kind | .bumped kind | .counting kind | .counted kind _ | .notified kind => decide (kind ≠ .legacy)
  | _ => true

def PublisherPc.holdsIdle : PublisherPc → Bool
  | .popping | .draining => true
  | _ => false

def PublisherPc.holdsM : PublisherPc → Bool
  | .counting _ => true
  | _ => false

/-- The publisher will still look for legacy parkers. -/
def PublisherPc.isBumped : PublisherPc → Bool
  | .bumped _ => true
  | _ => false

/-- The publisher has a notification of the legacy parkers still to deliver. -/
def PublisherPc.owes : PublisherPc → Bool
  | .bumped _ | .counting _ => true
  | .counted kind n => decide (kind = .all ∨ 0 < n)
  | _ => false

def LegacyPc.holdsM : LegacyPc → Bool
  | .locked _ | .counting _ | .counted _ | .relocked _ => true
  | _ => false

/-- The legacy parker is counted as parked. -/
def LegacyPc.isCounted : LegacyPc → Bool
  | .counted _ | .asleep _ | .relock _ | .relocked _ => true
  | _ => false

/-- The legacy parker has found the epoch unchanged and is about to wait. -/
def LegacyPc.settling : LegacyPc → Option Nat
  | .counting seen | .counted seen => some seen
  | _ => none

@[simp] theorem isMarked_notify (pc : WorkerPc) : pc.notify.isMarked = pc.isMarked := by
  cases pc <;> rfl

@[simp] theorem holdsIdle_notify (pc : WorkerPc) : pc.notify.holdsIdle = pc.holdsIdle := by
  cases pc <;> rfl

@[simp] theorem seen_notify (pc : WorkerPc) : pc.notify.seen? = pc.seen? := by
  cases pc <;> rfl

@[simp] theorem sought_notify (pc : WorkerPc) : pc.notify.sought = pc.sought := by
  cases pc <;> rfl

@[simp] theorem holdsM_notify (lp : LegacyPc) : lp.notify.holdsM = lp.holdsM := by
  cases lp <;> rfl

@[simp] theorem isCounted_notify (lp : LegacyPc) : lp.notify.isCounted = lp.isCounted := by
  cases lp <;> rfl

@[simp] theorem settling_notify (lp : LegacyPc) : lp.notify.settling = lp.settling := by
  cases lp <;> rfl

theorem notify_eq_parkWait {pc : WorkerPc} {seen : Nat} (h : pc.notify = .parkWait seen) : pc = .parkWait seen := by
  cases pc <;> first | exact h | cases h

theorem isAsleep_of_marked {pc : WorkerPc} (h : pc.isMarked = true) : pc.isAsleep = false := by
  cases pc <;> first | rfl | cases h

theorem registered_of_asleep {pc : WorkerPc} (h : pc.isAsleep = true) : pc.registered = true := by
  cases pc <;> first | rfl | cases h

theorem active_of_showing {pc : PublisherPc} (h : pc.showing = true) : pc.active = true := by
  cases pc with
  | visible kind => cases kind <;> first | rfl | cases h
  | _ => cases h

theorem sought_seen {pc : WorkerPc} {seen : Nat} (h : pc.sought = some seen) : pc.seen? = some seen := by
  cases pc <;> first | exact h | cases h

/-! ### What the steps of a worker do -/

variable {s t : State ι κ π} {i : ι} {pc pc' : WorkerPc} {e : WorkerEffect}

theorem WorkerMove.isMarked : WorkerMove s i pc e pc' → match e with
    | .mark => pc.isMarked = false ∧ pc'.isMarked = true
    | .unmark => pc.isMarked = true ∧ pc'.isMarked = false
    | _ => pc'.isMarked = pc.isMarked := by
  intro h
  cases h <;> first | exact ⟨rfl, rfl⟩ | rfl

theorem WorkerMove.holdsIdle : WorkerMove s i pc e pc' → match e with
    | .lock => s.idle = none ∧ pc'.holdsIdle = true
    | .unlock | .pop | .remove => pc.holdsIdle = true ∧ pc'.holdsIdle = false
    | _ => pc'.holdsIdle = pc.holdsIdle := by
  intro h
  cases h <;> first | exact ⟨rfl, rfl⟩ | exact ⟨‹_›, rfl⟩ | rfl

theorem WorkerMove.registered : WorkerMove s i pc e pc' → match e with
    | .push => pc.holdsIdle = true ∧ pc'.registered = true
    | .remove | .pop => pc'.registered = false
    | _ => pc'.registered = true → pc.registered = true := by
  intro h
  cases h <;> first | exact ⟨rfl, rfl⟩ | rfl | exact id

theorem WorkerMove.pop_places (h : WorkerMove s i pc .pop pc') : ∃ next, pc = .popping next ∧ pc' = .away next := by
  cases h
  exact ⟨_, rfl, rfl⟩

/-- A step keeps the epoch that was read, or reads it. -/
theorem WorkerMove.seen (h : WorkerMove s i pc e pc') {seen : Nat} (hseen : pc'.seen? = some seen) :
    pc.seen? = some seen ∨ seen = s.epoch := by
  cases h <;> first | exact .inl hseen | (cases hseen; exact .inr rfl) | cases hseen

/-- A worker that has found nothing found nothing before, or finds nothing now. -/
theorem WorkerMove.sought (h : WorkerMove s i pc e pc') {seen : Nat}
    (hsought : pc'.sought = some seen) : pc.sought = some seen ∨ s.items = 0 := by
  cases h <;> first | exact .inl hsought | exact .inr ‹_› | cases hsought

/-- Only a worker that is about to wait falls asleep. -/
theorem WorkerMove.asleep (h : WorkerMove s i pc e pc') (hasleep : pc'.isAsleep = true) :
    ∃ seen, pc = .parkWait seen := by
  cases h <;> first | exact ⟨_, rfl⟩ | cases hasleep

/-- A worker is about to wait when it has seen the epoch unchanged. -/
theorem WorkerMove.parkWait {seen : Nat} (h : WorkerMove s i pc e (.parkWait seen)) :
    pc.sought = some seen ∧ s.epoch = seen := by
  cases h
  exact ⟨rfl, ‹_›⟩

/-! ### What the steps of the others do -/

variable {lp lp' : LegacyPc} {le : LegacyEffect} {j : κ}

theorem LegacyMove.holdsM : LegacyMove s j lp le lp' → match le with
    | .lock => s.m = none ∧ lp'.holdsM = true
    | .unlock | .sleep => lp.holdsM = true ∧ lp'.holdsM = false
    | _ => lp'.holdsM = lp.holdsM := by
  intro h
  cases h <;> first | exact ⟨rfl, rfl⟩ | exact ⟨‹_›, rfl⟩ | rfl

theorem LegacyMove.isCounted : LegacyMove s j lp le lp' → match le with
    | .enter => lp.isCounted = false ∧ lp'.isCounted = true
    | .exit => lp.isCounted = true ∧ lp'.isCounted = false
    | _ => lp'.isCounted = lp.isCounted := by
  intro h
  cases h <;> first | exact ⟨rfl, rfl⟩ | rfl

/-- A legacy parker that is about to wait was so, or has seen the epoch unchanged. -/
theorem LegacyMove.settling (h : LegacyMove s j lp le lp') {seen : Nat}
    (hset : lp'.settling = some seen) : lp.settling = some seen ∨ s.epoch = seen := by
  cases h <;> first | exact .inl hset | (cases hset; exact .inr ‹_›) | cases hset

theorem LegacyMove.asleep (h : LegacyMove s j lp le (.asleep seen)) : lp.settling = some seen := by
  cases h
  rfl

theorem PublisherMove.holdsIdle : PublisherMove s pp pe pp' → match pe with
    | .lock => s.idle = none ∧ pp'.holdsIdle = true
    | .pop | .drain => pp.holdsIdle = true ∧ pp'.holdsIdle = false
    | _ => pp'.holdsIdle = pp.holdsIdle := by
  intro h
  cases h <;> first | exact ⟨rfl, rfl⟩ | exact ⟨‹_›, rfl⟩ | rfl

theorem PublisherMove.holdsM : PublisherMove s pp pe pp' → match pe with
    | .lockM => s.m = none ∧ pp'.holdsM = true
    | .unlockM => pp.holdsM = true ∧ pp'.holdsM = false
    | _ => pp'.holdsM = pp.holdsM := by
  intro h
  cases h <;> first | exact ⟨rfl, rfl⟩ | exact ⟨‹_›, rfl⟩ | rfl

/-- A publisher shows its item until it bumps the epoch. -/
theorem PublisherMove.showing : PublisherMove s pp pe pp' → match pe with
    | .shows => pp.showing = false ∧ pp'.showing = true
    | .bump => True
    | _ => pp'.showing = pp.showing := by
  intro h
  cases h <;> first | exact ⟨rfl, rfl⟩ | trivial

/-- A publisher is through with its call where it has seen a mark, or has had the stack. -/
theorem PublisherMove.active (h : PublisherMove s pp pe pp') (hact : pp.active = true) :
    pp'.active = true ∨ 0 < s.spinners ∨ pe = .pop ∨ pe = .drain := by
  cases h <;> first
    | exact .inl rfl
    | exact .inl hact
    | exact .inr (.inl ‹_›)
    | exact .inr (.inr (.inl rfl))
    | exact .inr (.inr (.inr rfl))

theorem PublisherMove.shows_active (h : PublisherMove s pp .shows pp') : pp'.active = true := by
  cases h <;> rfl

theorem PublisherMove.isBumped : PublisherMove s pp pe pp' → match pe with
    | .bump => pp'.isBumped = true
    | .lockM => s.m = none
    | _ => pp'.isBumped = pp.isBumped := by
  intro h
  cases h <;> first | rfl | assumption

theorem PublisherMove.bumps : PublisherMove s pp .bump pp' → pp'.isBumped = true ∧ pp'.owes = true := by
  rintro ⟨⟩
  exact ⟨rfl, rfl⟩

/-- A publisher that owes a notification delivers it, unless it counts nobody. -/
theorem PublisherMove.owes (h : PublisherMove s pp pe pp') (howes : pp.owes = true) :
    pp'.owes = true ∨ pe = .notify ∨ (pe = .unlockM ∧ s.legacyParked = 0) := by
  cases h with
  | unlockM =>
    by_cases hzero : s.legacyParked = 0
    · exact .inr (.inr ⟨rfl, hzero⟩)
    · refine .inl ?_
      simp only [PublisherPc.owes, decide_eq_true_eq]
      exact .inr (Nat.pos_of_ne_zero hzero)
  | notify => exact .inr (.inl rfl)
  | lockM => exact .inl rfl
  | skip kind h =>
    simp only [PublisherPc.owes, decide_eq_true_eq] at howes
    exact (howes.elim h (Nat.lt_irrefl 0)).elim
  | _ => cases howes

/-! ### Waking workers -/

/-- Some workers of the stack are woken, and taken off it. -/
structure Rouses (s s' : State ι κ π) : Prop where
  each : ∀ i, (s'.woken i = true ∧ s'.worker i = (s.worker i).notify) ∨
    (s'.woken i = s.woken i ∧ s'.worker i = s.worker i ∧ (i ∈ s.stack → i ∈ s'.stack))
  some : s.stack ≠ [] → ∃ i, s'.woken i = true
  rest : s'.epoch = s.epoch ∧ s'.spinners = s.spinners ∧ s'.items = s.items ∧ s'.idle = s.idle ∧
    s'.m = s.m ∧ s'.legacyParked = s.legacyParked ∧ s'.legacy = s.legacy ∧
    s'.publisher = s.publisher

theorem takeOne_none (h : takeOne wakes stack = none) : stack = [] := by
  rw [takeOne.eq_def] at h
  split_ifs at h
  · cases stack with
    | nil => rfl
    | cons => cases h
  · rw [Option.map_eq_none_iff] at h
    exact getLast?_eq_none_iff.mp h

theorem takeOne_some (h : takeOne wakes stack = some (i, rest)) : ∀ x, x ∈ stack → x = i ∨ x ∈ rest := by
  intro x hx
  rw [takeOne.eq_def] at h
  split_ifs at h
  · cases stack with
    | nil => cases h
    | cons =>
      cases h
      exact mem_cons.mp hx
  · rw [Option.map_eq_some_iff] at h
    obtain ⟨y, hy, hpair⟩ := h
    cases hpair
    have hne : stack ≠ [] := ne_nil_of_mem hx
    rw [getLast?_eq_some_getLast hne] at hy
    cases hy
    rw [← dropLast_append_getLast hne, mem_append, mem_singleton] at hx
    exact hx.symm

theorem wakeOneIdle_rouses [DecidableEq ι] (s : State ι κ π) : Rouses s s.wakeOneIdle := by
  rw [State.wakeOneIdle]
  cases htake : takeOne ((s.wakes + 1) % 2 ^ 32) s.stack with
  | none =>
    have hnil := takeOne_none htake
    exact ⟨fun i => .inr ⟨rfl, rfl, id⟩, fun hne => absurd hnil hne, rfl, rfl, rfl, rfl, rfl, rfl, rfl, rfl⟩
  | some pair =>
    obtain ⟨p, rest⟩ := pair
    have hmem := takeOne_some htake
    refine ⟨?_, ?_, rfl, rfl, rfl, rfl, rfl, rfl, rfl, rfl⟩
    · intro i
      obtain rfl | hi := eq_or_ne i p
      · exact .inl ⟨update_self .., update_self ..⟩
      · exact .inr ⟨update_of_ne hi .., update_of_ne hi .., fun hin => (hmem i hin).resolve_left hi⟩
    · exact fun _ => ⟨p, update_self ..⟩

theorem drain_rouses [DecidableEq ι] (s : State ι κ π) : Rouses s s.drain := by
  refine ⟨?_, ?_, rfl, rfl, rfl, rfl, rfl, rfl, rfl, rfl⟩
  · intro i
    by_cases hi : i ∈ s.stack
    · exact .inl ⟨if_pos hi, if_pos hi⟩
    · exact .inr ⟨if_neg hi, if_neg hi, fun hin => absurd hin hi⟩
  · intro hne
    obtain ⟨i, hi⟩ := exists_mem_of_ne_nil _ hne
    exact ⟨i, if_pos hi⟩

/-! ### The invariant -/

/-- The worker does not sleep, or is woken. -/
def Awake (s : State ι κ π) (i : ι) : Prop := ¬ ((s.worker i).isAsleep = true ∧ s.woken i = false)

/-- Some publisher of an item is not through with its wake call. -/
def Active (s : State ι κ π) : Prop := ∃ p, (s.publisher p).active = true

/-- A marked worker is awake. -/
theorem awake_of_marked (h : (s.worker i).isMarked = true) : Awake s i := by
  rintro ⟨hasleep, -⟩
  rw [isAsleep_of_marked h] at hasleep
  cases hasleep

/-- The workers' part. A worker that has found nothing since it read the present epoch leaves only
items whose publishers have yet to bump it; and an item is never left to sleeping workers alone. -/
structure WorkerInv [Fintype ι] [Fintype π] (s : State ι κ π) : Prop where
  marks : s.spinners = count WorkerPc.isMarked s.worker
  holds : ∀ i, (s.worker i).holdsIdle = true → s.idle = some (.inl i)
  held : ∀ p, (s.publisher p).holdsIdle = true → s.idle = some (.inr p)
  listed : ∀ i, (s.worker i).registered = true → s.woken i = false → i ∈ s.stack
  seen : ∀ i seen, (s.worker i).seen? = some seen → seen ≤ s.epoch
  sought : ∀ i seen, (s.worker i).sought = some seen → s.epoch = seen →
    s.items ≤ count PublisherPc.showing s.publisher
  waits : ∀ i seen, s.worker i = .parkWait seen → 0 < s.items → Active s ∨ ∃ j, j ≠ i ∧ Awake s j
  cover : 0 < s.items → Active s ∨ ∃ j, Awake s j

/-- The legacy parkers' part. Whoever sleeps on an old epoch is owed a notification. -/
structure LegacyInv [Fintype κ] (s : State ι κ π) : Prop where
  parked : s.legacyParked = count LegacyPc.isCounted s.legacy
  holds : ∀ j, (s.legacy j).holdsM = true → s.m = some (.inl j)
  held : ∀ p, (s.publisher p).holdsM = true → s.m = some (.inr p)
  settling : ∀ j seen, (s.legacy j).settling = some seen → s.epoch ≠ seen → ∃ p, (s.publisher p).isBumped = true
  asleep : ∀ j seen, s.legacy j = .asleep seen → s.epoch ≠ seen → ∃ p, (s.publisher p).owes = true

attribute [grind cases] WorkerInv LegacyInv

section Workers

variable [Fintype ι] [Fintype π]

/-- Waking workers keeps all of it. -/
theorem WorkerInv.rouse (h : WorkerInv s) (hr : Rouses s t) : WorkerInv t := by
  obtain ⟨hepoch, hspin, hitems, hidle, -, -, -, hpub⟩ := hr.rest
  have heach := hr.each
  have hawake : ∀ i, Awake s i → Awake t i := by grind [Awake]
  have hact : Active s → Active t := by rw [Active, Active, hpub]; exact id
  constructor
  case marks =>
    rw [hspin, h.marks]
    exact count_congr (by grind [isMarked_notify])
  case waits =>
    intro i seen hi hpos
    have hi' : s.worker i = .parkWait seen := by grind [notify_eq_parkWait]
    grind
  all_goals grind [holdsIdle_notify, seen_notify, sought_notify]

/-- Where the stack is empty nobody sleeps unwoken. -/
theorem WorkerInv.awake_of_nil (h : WorkerInv s) (hnil : s.stack = []) (i : ι) : Awake s i := by
  rintro ⟨hasleep, hwoken⟩
  have hmem := h.listed i (registered_of_asleep hasleep) hwoken
  rw [hnil] at hmem
  cases hmem

theorem WorkerInv.rouse_awake [Nonempty ι] (h : WorkerInv s) (hr : Rouses s t) : ∃ i, Awake t i := by
  have heach := hr.each
  by_cases hnil : s.stack = []
  · obtain ⟨i⟩ := ‹Nonempty ι›
    have ha := h.awake_of_nil hnil i
    exact ⟨i, by grind [Awake]⟩
  · obtain ⟨i, hi⟩ := hr.some hnil
    exact ⟨i, by grind [Awake]⟩

variable [DecidableEq ι]

section

variable (h : WorkerInv s)
include h

/-- What the cover of an item needs of a worker's step: it falls asleep from its wait alone, and is
about to wait only at the present epoch. -/
theorem WorkerInv.move_cover (hm : WorkerMove s i (s.worker i) e pc')
    (hworker : t.worker = update s.worker i pc') (hpub : t.publisher = s.publisher)
    (hitems : t.items ≤ s.items) (hwoken : ∀ j, j ≠ i → t.woken j = s.woken j)
    (hlock : (∃ seen, s.worker i = .parkWait seen) → ∀ j, j ≠ i → ¬ ∃ seen, s.worker j = .parkWait seen) :
    (∀ j seen, t.worker j = .parkWait seen → 0 < t.items → Active t ∨ ∃ j', j' ≠ j ∧ Awake t j') ∧
      (0 < t.items → Active t ∨ ∃ j, Awake t j) := by
  have hact : Active s → Active t := by rw [Active, Active, hpub]; exact id
  have hother : ∀ j, j ≠ i → Awake s j → Awake t j := by
    simp only [Awake, hworker]
    grind
  have hself : pc'.isAsleep = false → Awake t i := by
    simp only [Awake, hworker]
    grind
  have hasleep := hm.asleep
  constructor
  · intro j seen hj hpos
    have hpos' : 0 < s.items := hpos.trans_le hitems
    rw [hworker] at hj
    obtain rfl | hji := eq_or_ne j i
    · rw [update_self] at hj
      subst hj
      obtain ⟨hsought, hepoch⟩ := hm.parkWait
      have hle := h.sought j seen hsought hepoch
      obtain ⟨p, hp⟩ := count_pos.mp (hpos'.trans_le hle)
      exact .inl (hact ⟨p, active_of_showing hp⟩)
    · -- of two workers one has the mutex, so the other does not fall asleep
      grind
  · grind

/-- A worker's step keeps the invariant where the marks, the mutex and the stack are kept. -/
theorem WorkerInv.moved (hm : WorkerMove s i (s.worker i) e pc')
    (hworker : t.worker = update s.worker i pc') (hpub : t.publisher = s.publisher)
    (hepoch : t.epoch = s.epoch) (hitems : t.items ≤ s.items)
    (hwoken : ∀ j, j ≠ i → t.woken j = s.woken j)
    (hmarks : t.spinners = count WorkerPc.isMarked t.worker)
    (hholds : ∀ j, (t.worker j).holdsIdle = true → t.idle = some (.inl j))
    (hheld : ∀ p, (t.publisher p).holdsIdle = true → t.idle = some (.inr p))
    (hlisted : ∀ j, (t.worker j).registered = true → t.woken j = false → j ∈ t.stack) :
    WorkerInv t := by
  have hlock : (∃ seen, s.worker i = .parkWait seen) → ∀ j, j ≠ i → ¬ ∃ seen, s.worker j = .parkWait seen := by
    rintro ⟨seen, hi⟩ j hne ⟨seen', hj⟩
    have hone := h.holds i (by rw [hi]; rfl)
    have htwo := h.holds j (by rw [hj]; rfl)
    grind
  obtain ⟨hwaits, hcover⟩ := h.move_cover hm hworker hpub hitems hwoken hlock
  have hseen := @hm.seen
  have hsought := @hm.sought
  refine ⟨hmarks, hholds, hheld, hlisted, ?_, ?_, hwaits, hcover⟩
  all_goals simp only [hworker]
  all_goals grind

/-- Where a step keeps the mutex, its holder keeps it. -/
theorem WorkerInv.holds_same (hpc : pc'.holdsIdle = (s.worker i).holdsIdle) (j : ι)
    (hj : (update s.worker i pc' j).holdsIdle = true) : s.idle = some (.inl j) := by
  grind [update_apply]

/-- Where a worker gives the mutex back nobody has it. -/
theorem WorkerInv.holds_none (hpc : (s.worker i).holdsIdle = true) (hpc' : pc'.holdsIdle = false) :
    (∀ j, (update s.worker i pc' j).holdsIdle = false) ∧ ∀ p, (s.publisher p).holdsIdle = false := by
  all_goals grind [update_apply]

theorem WorkerInv.listed_same (hpc : pc'.registered = true → (s.worker i).registered = true) (j : ι)
    (hj : (update s.worker i pc' j).registered = true) (hw : s.woken j = false) : j ∈ s.stack := by
  grind [update_apply]

theorem WorkerInv.marks_same (hpc : pc'.isMarked = (s.worker i).isMarked) :
    s.spinners = count WorkerPc.isMarked (update s.worker i pc') := by
  rw [count_update_same hpc]
  exact h.marks

theorem WorkerInv.worker (hm : WorkerMove s i (s.worker i) e pc') :
    WorkerInv ((s.byWorker i e).setWorker i pc') := by
  have hmark := hm.isMarked
  have hhold := hm.holdsIdle
  have hreg := hm.registered
  cases e with
  | silent =>
    exact h.moved hm rfl rfl rfl le_rfl (fun _ _ => rfl) (h.marks_same hmark)
      (h.holds_same hhold) h.held (h.listed_same hreg)
  | mark =>
    refine h.moved hm rfl rfl rfl le_rfl (fun _ _ => rfl) ?_ (h.holds_same hhold) h.held (h.listed_same hreg)
    exact (congrArg (· + 1) h.marks).trans (count_update_enter hmark.1 hmark.2).symm
  | unmark =>
    refine h.moved hm rfl rfl rfl le_rfl (fun _ _ => rfl) ?_ (h.holds_same hhold) h.held (h.listed_same hreg)
    have hcount := count_update_leave hmark.1 hmark.2
    have hmarks := h.marks
    show s.spinners - 1 = count WorkerPc.isMarked (update s.worker i pc')
    omega
  | claim =>
    exact h.moved hm rfl rfl rfl (Nat.sub_le _ _) (fun _ _ => rfl) (h.marks_same hmark)
      (h.holds_same hhold) h.held (h.listed_same hreg)
  | lock | unlock =>
    refine h.moved hm rfl rfl rfl le_rfl (fun _ _ => rfl) (h.marks_same hmark) ?_ ?_ (h.listed_same hreg)
    all_goals simp only [State.setWorker, State.byWorker]
    all_goals grind
  | push | remove =>
    refine h.moved hm rfl rfl rfl le_rfl ?_ (h.marks_same hmark) ?_ ?_ ?_
    all_goals simp only [State.setWorker, State.byWorker]
    all_goals grind
  | pop =>
    -- the worker wakes another one, and then gives the mutex back
    have hr := wakeOneIdle_rouses s
    have h₁ := h.rouse hr
    obtain ⟨next, hpop, haway⟩ := hm.pop_places
    have hpc : s.wakeOneIdle.worker i = s.worker i := by grind [hr.each i, WorkerPc.notify]
    have hm₁ : WorkerMove s.wakeOneIdle i (s.wakeOneIdle.worker i) .pop pc' := by
      rw [hpc, hpop, haway]
      exact .pop next
    rw [← hpc] at hmark hhold
    obtain ⟨hworkers, hpubs⟩ := h₁.holds_none hhold.1 hhold.2
    refine h₁.moved hm₁ rfl rfl rfl le_rfl (fun _ _ => rfl) (h₁.marks_same hmark) ?_ ?_
      (h₁.listed_same (fun hf => absurd (hreg.symm.trans hf) (by simp)))
    · exact fun j hj => absurd ((hworkers j).symm.trans hj) (by simp)
    · exact fun p hp => absurd ((hpubs p).symm.trans hp) (by simp)

end

variable [DecidableEq π] [Nonempty ι] {p : π}

omit [Fintype ι] [Fintype π] [DecidableEq ι] [Nonempty ι] in
/-- A publisher's step leaves some publisher active, or it has seen a mark, or has had the stack. -/
theorem active_after (hm : PublisherMove s (s.publisher p) pe pp') (h : Active s)
    (hpub : t.publisher = update s.publisher p pp') :
    Active t ∨ 0 < s.spinners ∨ pe = .pop ∨ pe = .drain := by
  obtain ⟨q, hq⟩ := h
  have hactive := hm.active
  rw [Active, hpub]
  obtain rfl | hqp := eq_or_ne q p
  · exact (hactive hq).imp_left fun hact => ⟨q, by rw [update_self]; exact hact⟩
  · exact .inl ⟨q, by rw [update_of_ne hqp]; exact hq⟩

omit [DecidableEq ι] [Nonempty ι] in
/-- A publisher's step that leaves the workers alone. -/
theorem WorkerInv.published (h : WorkerInv s) (hm : PublisherMove s (s.publisher p) pe pp')
    (hpub : t.publisher = update s.publisher p pp') (hworker : t.worker = s.worker)
    (hwoken : t.woken = s.woken) (hstack : t.stack = s.stack) (hspin : t.spinners = s.spinners)
    (hepoch : t.epoch = s.epoch ∨ t.epoch = s.epoch + 1)
    (hitems : 0 < t.items → 0 < s.items ∨ Active t) (hstay : pe ≠ .pop ∧ pe ≠ .drain)
    (hsought : t.epoch = s.epoch → s.items ≤ count PublisherPc.showing s.publisher →
      t.items ≤ count PublisherPc.showing t.publisher)
    (hholds : ∀ j, (s.worker j).holdsIdle = true → t.idle = some (.inl j))
    (hheld : ∀ q, (t.publisher q).holdsIdle = true → t.idle = some (.inr q)) : WorkerInv t := by
  have hawake : ∀ j, Awake s j → Awake t j := by
    intro j ha
    rw [Awake, hworker, hwoken]
    exact ha
  have hafter : Active s → Active t ∨ 0 < s.spinners := by
    intro hact
    have hactive := active_after hm hact hpub
    grind
  -- whoever has seen a mark leaves the item to the worker that set it
  have hmarked : 0 < s.spinners → ∃ j, (s.worker j).isMarked = true ∧ Awake t j := by
    intro hpos
    rw [h.marks] at hpos
    obtain ⟨j, hj⟩ := count_pos.mp hpos
    exact ⟨j, hj, hawake j (awake_of_marked hj)⟩
  constructor
  case sought =>
    intro j seen hj hnow
    rw [hworker] at hj
    have hle := h.seen j seen (sought_seen hj)
    have hsame : t.epoch = s.epoch := by omega
    exact hsought hsame (h.sought j seen hj (by omega))
  case waits =>
    intro j seen hj hpos
    rw [hworker] at hj
    have hwaits := h.waits j seen hj
    grind [WorkerPc.isMarked]
  all_goals simp -failIfUnchanged only [hworker]
  all_goals grind

omit [DecidableEq ι] in
/-- A publisher wakes workers, and gives the mutex back. -/
theorem WorkerInv.roused (h : WorkerInv s) (hr : Rouses s t)
    (hpc : (s.publisher p).holdsIdle = true) (hpc' : pp'.holdsIdle = false)
    (hshow : pp'.showing = (s.publisher p).showing) :
    WorkerInv { t with idle := none, publisher := update t.publisher p pp' } := by
  have h₁ := h.rouse hr
  obtain ⟨i, hi⟩ := h.rouse_awake hr
  have hpub : t.publisher = s.publisher := hr.rest.2.2.2.2.2.2.2
  have hmine : t.idle = some (.inr p) := h₁.held p (by rw [hpub]; exact hpc)
  have hfree : ∀ j, (t.worker j).holdsIdle = false := by grind
  refine ⟨h₁.marks, ?_, ?_, h₁.listed, h₁.seen, ?_, ?_, fun _ => .inr ⟨i, hi⟩⟩
  · grind
  · simp only [update_apply]
    grind
  · intro j seen hj hnow
    rw [hpub, count_update_same hshow, ← hpub]
    exact h₁.sought j seen hj hnow
  · grind [WorkerPc.holdsIdle]

omit [DecidableEq ι] [Nonempty ι] in
theorem WorkerInv.held_same (h : WorkerInv s) (hpc : pp'.holdsIdle = (s.publisher p).holdsIdle)
    (q : π) (hq : (update s.publisher p pp' q).holdsIdle = true) :
    s.idle = some (.inr q) := by
  grind [update_apply]

theorem WorkerInv.publisher (h : WorkerInv s) (hm : PublisherMove s (s.publisher p) pe pp') :
    WorkerInv ((s.byPublisher p pe).setPublisher p pp') := by
  have hhold := hm.holdsIdle
  have hshow := hm.showing
  cases pe with
  | silent | unlockM | lockM | notify =>
    refine h.published hm rfl rfl rfl rfl rfl (.inl rfl) .inl (by simp) ?_ h.holds (h.held_same hhold)
    intro _ hle
    exact hle.trans (count_update_same hshow).symm.le
  | shows =>
    refine h.published hm rfl rfl rfl rfl rfl (.inl rfl) ?_ (by simp) ?_ h.holds (h.held_same hhold)
    · exact fun _ => .inr ⟨p, (congrArg _ (update_self ..)).trans hm.shows_active⟩
    · intro _ hle
      have hcount : count PublisherPc.showing (update s.publisher p pp') = _ := count_update_enter hshow.1 hshow.2
      show s.items + 1 ≤ count PublisherPc.showing (update s.publisher p pp')
      omega
  | bump =>
    refine h.published hm rfl rfl rfl rfl rfl (.inr rfl) .inl (by simp) ?_ h.holds (h.held_same hhold)
    intro hsame
    exact absurd hsame (Nat.succ_ne_self _)
  | lock =>
    refine h.published hm rfl rfl rfl rfl rfl (.inl rfl) .inl (by simp) ?_ ?_ ?_
    · intro _ hle
      exact hle.trans (count_update_same hshow).symm.le
    all_goals simp only [State.setPublisher, State.byPublisher]
    all_goals grind
  | pop => exact (h.roused (wakeOneIdle_rouses s) hhold.1 hhold.2 hshow :)
  | drain => exact (h.roused (drain_rouses s) hhold.1 hhold.2 hshow :)

end Workers

/-! ### The legacy parkers -/

section Legacy

variable [Fintype κ] [DecidableEq κ]

theorem LegacyInv.legacy (h : LegacyInv s) (hm : LegacyMove s j (s.legacy j) le lp') :
    LegacyInv ((s.byLegacy j le).setLegacy j lp') := by
  have hhold := hm.holdsM
  have hcount := hm.isCounted
  have hsettling := @hm.settling
  -- the epoch and the publishers are as before
  have hsettle : ∀ j' seen, (update s.legacy j lp' j').settling = some seen →
      s.epoch ≠ seen → ∃ p, (s.publisher p).isBumped = true := by
    grind [update_apply]
  have hasleep : ∀ j' seen, update s.legacy j lp' j' = .asleep seen → s.epoch ≠ seen →
      ∃ p, (s.publisher p).owes = true := by
    intro j' seen hj' hne
    obtain rfl | hjj := eq_or_ne j' j
    · rw [update_self] at hj'
      subst hj'
      obtain ⟨p, hp⟩ := h.settling j' seen hm.asleep hne
      refine ⟨p, ?_⟩
      cases hpc : s.publisher p <;> rw [hpc] at hp <;> first | rfl | cases hp
    · rw [update_of_ne hjj] at hj'
      exact h.asleep j' seen hj' hne
  have hparked := h.parked
  cases le with
  | enter =>
    refine ⟨?_, ?_, h.held, hsettle, hasleep⟩
    · exact (congrArg (· + 1) hparked).trans (count_update_enter hcount.1 hcount.2).symm
    · simp only [State.setLegacy, State.byLegacy]
      grind
  | exit =>
    refine ⟨?_, ?_, h.held, hsettle, hasleep⟩
    · have hleave := count_update_leave hcount.1 hcount.2
      show s.legacyParked - 1 = count LegacyPc.isCounted (update s.legacy j lp')
      omega
    · simp only [State.setLegacy, State.byLegacy]
      grind
  | _ =>
    refine ⟨hparked.trans (count_update_same hcount).symm, ?_, ?_, hsettle, hasleep⟩
    all_goals simp only [State.setLegacy, State.byLegacy]
    all_goals grind

variable {p : π}

omit [DecidableEq κ] in
/-- Whoever sleeps is counted. -/
theorem LegacyInv.parked_pos (h : LegacyInv s) (hj : s.legacy j = .asleep seen) : 0 < s.legacyParked := by
  rw [h.parked]
  exact count_pos.mpr ⟨j, by rw [hj]; rfl⟩

variable [DecidableEq π]

section

omit [DecidableEq κ]

/-- A publisher's step, other than the bump and the notification. -/
theorem LegacyInv.published (h : LegacyInv s) (hm : PublisherMove s (s.publisher p) pe pp')
    (hpub : t.publisher = update s.publisher p pp') (hlegacy : t.legacy = s.legacy)
    (hparked : t.legacyParked = s.legacyParked) (hepoch : t.epoch = s.epoch) (hne : pe ≠ .notify)
    (hholds : ∀ j, (t.legacy j).holdsM = true → t.m = some (.inl j))
    (hheld : ∀ q, (t.publisher q).holdsM = true → t.m = some (.inr q)) : LegacyInv t := by
  have hbumped := hm.isBumped
  have hpos : ∀ j seen, s.legacy j = .asleep seen → 0 < s.legacyParked := fun _ _ => h.parked_pos
  have howes := hm.owes
  refine ⟨?_, hholds, hheld, ?_, ?_⟩
  · rw [hparked, hlegacy]
    exact h.parked
  · intro j seen hj hold
    rw [hlegacy] at hj
    rw [hepoch] at hold
    obtain ⟨q, hq⟩ := h.settling j seen hj hold
    -- the parker that is about to wait has the mutex
    have hmine := h.holds j (by cases hpc : s.legacy j <;> rw [hpc] at hj <;> first | rfl | cases hj)
    refine ⟨q, ?_⟩
    rw [hpub, update_apply]
    cases pe <;> grind
  · intro j seen hj hold
    rw [hlegacy] at hj
    rw [hepoch] at hold
    obtain ⟨q, hq⟩ := h.asleep j seen hj hold
    refine ⟨q, ?_⟩
    rw [hpub, update_apply]
    grind

theorem LegacyInv.held_same (h : LegacyInv s) (hpc : pp'.holdsM = (s.publisher p).holdsM) (q : π)
    (hq : (update s.publisher p pp' q).holdsM = true) : s.m = some (.inr q) := by
  grind [update_apply]

theorem LegacyInv.publisher [DecidableEq ι] (h : LegacyInv s) (hm : PublisherMove s (s.publisher p) pe pp') :
    LegacyInv ((s.byPublisher p pe).setPublisher p pp') := by
  have hhold := hm.holdsM
  cases pe with
  | silent | shows | lock | drain => exact h.published hm rfl rfl rfl rfl (by simp) h.holds (h.held_same hhold)
  | pop =>
    obtain ⟨hepoch, -, -, -, hmutex, hparked, hlegacy, hpub⟩ := (wakeOneIdle_rouses s).rest
    refine h.published hm ?_ hlegacy hparked hepoch (by simp) ?_ ?_
    · exact congrArg (fun f => update f p pp') hpub
    all_goals simp only [State.setPublisher, State.byPublisher, hmutex, hlegacy, hpub]
    · exact h.holds
    · exact h.held_same hhold
  | lockM | unlockM =>
    refine h.published hm rfl rfl rfl rfl (by simp) ?_ ?_
    all_goals simp only [State.setPublisher, State.byPublisher, update_apply]
    all_goals grind
  | bump =>
    obtain ⟨hbumped, howes⟩ := hm.bumps
    refine ⟨h.parked, h.holds, h.held_same hhold, ?_, ?_⟩
    · exact fun _ _ _ _ => ⟨p, (congrArg _ (update_self ..)).trans hbumped⟩
    · exact fun _ _ _ _ => ⟨p, (congrArg _ (update_self ..)).trans howes⟩
  | notify =>
    have hbumped := hm.isBumped
    refine ⟨?_, ?_, h.held_same hhold, ?_, ?_⟩
    · exact h.parked.trans (count_congr (fun j => (isCounted_notify _).symm))
    · intro j hj
      exact h.holds j (by rw [← holdsM_notify]; exact hj)
    · intro j seen hj hold
      have hj' : (s.legacy j).notify.settling = some seen := hj
      rw [settling_notify] at hj'
      obtain ⟨q, hq⟩ := h.settling j seen hj' hold
      refine ⟨q, ?_⟩
      show (update s.publisher p pp' q).isBumped = true
      rw [update_apply]
      grind
    · intro j seen hj
      have hj' : (s.legacy j).notify = .asleep seen := hj
      cases hpc : s.legacy j <;> rw [hpc] at hj' <;> cases hj'

end

end Legacy

/-! ### No wake-up is lost -/

section Runs

variable [Fintype ι] [Fintype κ] [Fintype π] [DecidableEq ι] [DecidableEq κ] [DecidableEq π]

omit [DecidableEq ι] [DecidableEq κ] [DecidableEq π] in
theorem inv_init : WorkerInv (.init : State ι κ π) ∧ LegacyInv (.init : State ι κ π) := by
  constructor
  · refine ⟨?_, nofun, nofun, nofun, nofun, nofun, nofun, fun hf => absurd hf (Nat.lt_irrefl 0)⟩
    exact (count_eq_zero.mpr (fun _ => rfl)).symm
  · refine ⟨?_, nofun, nofun, nofun, nofun⟩
    exact (count_eq_zero.mpr (fun _ => rfl)).symm

theorem inv_step [Nonempty ι] (h : WorkerInv s ∧ LegacyInv s) (hstep : Step s t) : WorkerInv t ∧ LegacyInv t := by
  cases hstep with
  | worker i hm =>
    refine ⟨h.1.worker hm, ?_⟩
    rename_i e pc
    cases e with
    | pop =>
      obtain ⟨hepoch, -, -, -, hmutex, hparked, hlegacy, hpub⟩ := (wakeOneIdle_rouses s).rest
      constructor
      all_goals simp only [State.byWorker, hepoch, hmutex, hparked, hlegacy, hpub]
      · exact h.2.parked
      · exact h.2.holds
      · exact h.2.held
      · exact h.2.settling
      · exact h.2.asleep
    | _ => exact ⟨h.2.parked, h.2.holds, h.2.held, h.2.settling, h.2.asleep⟩
  | legacy j hm =>
    refine ⟨?_, h.2.legacy hm⟩
    rename_i e pc
    have hw := h.1
    cases e <;> exact ⟨hw.marks, hw.holds, hw.held, hw.listed, hw.seen, hw.sought, hw.waits, hw.cover⟩
  | publisher p hm => exact ⟨h.1.publisher hm, h.2.publisher hm⟩

theorem Reachable.inv [Nonempty ι] (h : Reachable s) : WorkerInv s ∧ LegacyInv s := by
  induction h with
  | init => exact inv_init
  | step _ hstep ih => exact inv_step ih hstep

/-- In no state of any run is an item left unclaimed with every worker asleep in `park_worker`,
unwoken, and no publisher still in its wake call; and a legacy parker that sleeps on an epoch other
than the present one is owed a notification by a publisher. -/
theorem no_lost_wakeup [Nonempty ι] (s : State ι κ π) (h : Reachable s) :
    ¬ (0 < s.items ∧ (∀ i, ∃ seen, s.worker i = .asleep seen ∧ s.woken i = false) ∧
        ∀ p, (s.publisher p).active = false) ∧
      ∀ j seen, s.legacy j = .asleep seen → s.epoch ≠ seen → ∃ p, (s.publisher p).owes = true := by
  obtain ⟨hw, hl⟩ := h.inv
  refine ⟨?_, hl.asleep⟩
  rintro ⟨hpos, hasleep, hidle⟩
  cases hw.cover hpos with
  | inl hact =>
    obtain ⟨p, hp⟩ := hact
    rw [hidle p] at hp
    cases hp
  | inr hawake =>
    obtain ⟨i, hi⟩ := hawake
    obtain ⟨seen, hpc, hwoken⟩ := hasleep i
    exact hi ⟨by rw [hpc]; rfl, hwoken⟩

omit [Fintype ι] [Fintype κ] [Fintype π] in
theorem Reachable.worker (h : Reachable s) (hpc : s.worker i = pc) (hm : WorkerMove s i pc e pc') :
    Reachable ((s.byWorker i e).setWorker i pc') := by
  subst hpc
  exact h.step (.worker i hm)

/-- A worker falls asleep, and then a publisher shows an item. -/
theorem no_lost_wakeup_one_worker :
    ∃ s : State Unit Unit Unit, Reachable s ∧ 0 < s.items ∧ s.worker () = .asleep 0 ∧
      s.woken () = false ∧ ¬ ∀ p, (s.publisher p).active = false := by
  have h₁ := (Reachable.init (ι := Unit) (κ := Unit) (π := Unit)).worker (i := ()) rfl .readEpoch
  have h₂ := h₁.worker (i := ()) rfl (.spinEnter 0)
  have h₃ := h₂.worker (i := ()) rfl (.lookNone 0 rfl)
  have h₄ := h₃.worker (i := ()) rfl (.lockPark 0 rfl)
  have h₅ := h₄.worker (i := ()) rfl (.consume 0)
  have h₆ := h₅.worker (i := ()) rfl (.same 0 rfl)
  have h₇ := h₆.worker (i := ()) rfl (.push 0)
  have h₈ := h₇.worker (i := ()) rfl (.notWoken 0 rfl)
  have h₉ := h₈.worker (i := ()) rfl (.epochSame 0 rfl)
  have hsleeps := h₉.worker (i := ()) rfl (.wait 0)
  have hshown := hsleeps.step (.publisher () .work)
  refine ⟨_, hshown, Nat.one_pos, rfl, rfl, ?_⟩
  intro hidle
  exact (no_lost_wakeup _ hshown).1 ⟨Nat.one_pos, fun _ => ⟨0, rfl, rfl⟩, hidle⟩

end Runs

end ParkLot
