import Pgrust.MultiXactNumbers

/-!
The members of a multixact are read back as they were given, whatever others allocate or record
meanwhile.
-/
namespace MultiXact

open XidOrder Heap

/-- A multixact that is not cut off. -/
def History.Live (h : History) (k : Nat) : Prop := k < h.count ∧ h.oldestIndex ≤ h.first + k

/-- The slot after the last one of a multixact. -/
def Rec.finish (r : Rec) : Nat := r.pos + r.members.length

/-- The counters and the history. -/
structure Numbered (c : Counters) (h : History) : Prop where
  span : h.first + h.count < h.oldestIndex + 2 ^ 31
  oldest : h.oldestIndex ≤ h.first + h.count
  oldestId : c.oldestMultiXactId = idOf h.oldestIndex
  nextId : c.nextMXact = idOf (h.first + h.count) ∨ idOf (h.first + h.count) = 1 ∧ c.nextMXact = 0
  nextOffset : c.nextOffset = UInt32.ofNat h.nextPos
  oldestPos : h.oldestPos ≤ h.nextPos
  room : 0 < h.count → h.nextPos + 1636 ≤ h.oldestPos + 2 ^ 32
  multi : ∀ k < h.count, (h.log k).multi = idOf (h.first + k)
  offset : ∀ k < h.count, (h.log k).offset = UInt32.ofNat (h.log k).pos
  start : ∀ k < h.count, (h.log k).pos % 2 ^ 32 ≠ 0
  valid : ∀ k < h.count, ∀ m ∈ (h.log k).members, transactionIdIsValid m.xid = true
  short : ∀ k < h.count, (h.log k).members.length + 1 < 2 ^ 31
  follows : ∀ k, k + 1 < h.count → (h.log (k + 1)).pos = beginning (h.log k).finish
  last : ∀ k, k + 1 = h.count → h.nextPos = (h.log k).finish
  ordered : ∀ j k, j < k → k < h.count → (h.log j).finish ≤ (h.log k).pos
  below : ∀ k < h.count, (h.log k).finish ≤ h.nextPos
  livePos : ∀ k, h.Live k → h.oldestPos ≤ (h.log k).pos

/-- A counter that has gone from zero to one before the next multixact. -/
def Early (c : Counters) (h : History) : Prop :=
  0 < h.count → idOf (h.first + h.count) = 1 → c.nextMXact = 1 → h.nextPos % 2 ^ 32 ≠ 0

/-- What the entries of the offsets say. -/
structure Entered (offsets : Pages) (h : History) (p : Nat → Progress) : Prop where
  own : ∀ k, h.Live k → (p k).own = true → readOffsetEntry offsets (idOf (h.first + k)) = UInt32.ofNat (h.log k).pos
  next : ∀ k, h.Live k → (p k).next = true →
    readOffsetEntry offsets (idOf (h.first + k + 1)) = UInt32.ofNat (beginning (h.log k).finish)

/-- A slot has a member. -/
def Holds (members : Pages) (pos : Nat) (m : MultiXactMember) : Prop :=
  readMemberXid members (UInt32.ofNat pos) = m.xid ∧
    readMemberFlags members (UInt32.ofNat pos) = mxstatusToWord m.status

/-- What the member slots have. Slot zero between two multixacts is empty. -/
structure Filled (members : Pages) (h : History) (p : Nat → Progress) : Prop where
  written : ∀ k, h.Live k → ∀ j m, j < (p k).written → (h.log k).members[j]? = some m →
    Holds members ((h.log k).pos + j) m
  unused : ∀ k, h.Live k → k + 1 < h.count → (h.log k).finish % 2 ^ 32 = 0 → readMemberXid members 0 = 0

/-- A multixact that has been recorded. -/
structure Recorded (r : Rec) (p : Progress) : Prop where
  own : p.own = true
  next : p.next = true
  written : r.members.length ≤ p.written

/-- What has been returned has been recorded. -/
def Finished (h : History) (p : Nat → Progress) : Prop :=
  ∀ k < h.count, (p k).done = true → Recorded (h.log k) (p k)

/-- A creator is at a multixact. -/
structure Works (h : History) (k : Nat) (multi : MultiXactId) : Prop where
  live : h.Live k
  multi : multi = (h.log k).multi

/-- A reader is at a multixact that is recorded. -/
structure Reads (h : History) (p : Nat → Progress) (k : Nat) (multi : MultiXactId) : Prop where
  works : Works h k multi
  recorded : Recorded (h.log k) (p k)

/-- What a reader has seen of the counters: the end of the newest multixact, or that there is a next
one, if it matters. -/
structure Saw (h : History) (k : Nat) (multi nextMXact : MultiXactId) (nextOffset : MultiXactOffset) : Prop where
  newest : nextMXact = multi + 1 → nextOffset = UInt32.ofNat (h.log k).finish
  older : nextMXact ≠ multi + 1 → (h.log k).finish % 2 ^ 32 = 0 → k + 1 < h.count

/-- What is known of a place. -/
def Placed (h : History) (p : Nat → Progress) : Pc → Prop
  | .idle | .refused => True
  | .create members | .warned members _ =>
    (∀ m ∈ members, transactionIdIsValid m.xid = true) ∧ members.length + 1 < 2 ^ 31
  | .own k multi offset members => Works h k multi ∧ offset = (h.log k).offset ∧ members = (h.log k).members
  | .next k multi offset members =>
    Works h k multi ∧ offset = (h.log k).offset ∧ members = (h.log k).members ∧ (p k).own = true
  | .write k multi off todo =>
    Works h k multi ∧ (p k).own = true ∧ (p k).next = true ∧
      ∃ done, (h.log k).members = done ++ todo ∧ off = UInt32.ofNat ((h.log k).pos + done.length) ∧
        done.length ≤ (p k).written
  | .returned k multi => k < h.count ∧ Recorded (h.log k) (p k) ∧ multi = (h.log k).multi
  | .read k multi => Reads h p k multi
  | .checked k multi nextMXact nextOffset => Reads h p k multi ∧ Saw h k multi nextMXact nextOffset
  | .found k multi nextMXact nextOffset offset =>
    Reads h p k multi ∧ Saw h k multi nextMXact nextOffset ∧ offset = UInt32.ofNat (h.log k).pos
  | .scan k multi off left out =>
    Reads h p k multi ∧ ∃ j extra, j + left = (h.log k).members.length + extra ∧ extra ≤ 1 ∧
      (extra = 1 → (h.log k).finish % 2 ^ 32 = 0 ∧ k + 1 < h.count) ∧
      off = UInt32.ofNat ((h.log k).pos + j) ∧ out = (h.log k).members.take j
  | .answered k _ out => k < h.count ∧ out = (h.log k).members
  | .failed _ _ _ => False

variable {ι : Type}

structure Inv (s : State ι) : Prop where
  numbered : Numbered s.shared.counters s.history
  early : Early s.shared.counters s.history
  entered : Entered s.shared.offsets s.history s.progress
  filled : Filled s.shared.members s.history s.progress
  finished : Finished s.history s.progress
  placed : ∀ i, Placed s.history s.progress (s.pc i)

/-- More has been recorded. -/
structure Progress.Le (p p' : Progress) : Prop where
  own : p.own = true → p'.own = true
  next : p.next = true → p'.next = true
  written : p.written ≤ p'.written

/-- The history has gone on. -/
structure Grows (h : History) (p : Nat → Progress) (h' : History) (p' : Nat → Progress) : Prop where
  count : h.count ≤ h'.count
  log : ∀ k < h.count, h'.log k = h.log k
  progress : ∀ k < h.count, (p k).Le (p' k)

attribute [grind cases] Grows Progress.Le Recorded Works Reads Saw

/-- What is known of a place stays so. -/
theorem Placed.grows (hp : Placed h p pc) (hg : Grows h p h' p')
    (hlive : ∀ k, pc.record = some k → h.Live k → h'.Live k) : Placed h' p' pc := by
  cases pc with
  | scan k =>
    obtain ⟨hr, j, extra, hscan⟩ := hp
    refine ⟨?_, j, extra, ?_⟩
    all_goals grind [Pc.record, Works, Reads, Recorded, History.Live]
  | _ => grind [Placed, Pc.record, Works, Reads, Recorded, Saw, History.Live]

end MultiXact
