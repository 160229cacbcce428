import Pgrust.XidOrder

/-!
The array of transaction ids known to be running on a standby. Its entries between tail and head are
sorted in circular order; a removed entry keeps its id and loses its mark, until a compression moves the
marked ones to the front.
-/

namespace KnownAssignedXids

open XidOrder List
open Function (update update_of_ne update_self)

variable {fuel : Nat} {removeXid xmax : TransactionId} {p : TransactionId × Bool}

inductive KAXCompressReason
  | noSpace
  | prune
  | transactionEnd
  | startupProcessIdle
  deriving DecidableEq

def kaxCompressFrequency : UInt32 := 128

def kaxCompressIdleIntervalMs : Int := 1000

inductive KaxError
  | outOfOrder
  | tooMany
  | notEmpty
  deriving DecidableEq

def KaxError.message : KaxError → String
  | outOfOrder => "out-of-order XID insertion in KnownAssignedXids"
  | tooMany => "too many KnownAssignedXids"
  | notEmpty => "KnownAssignedXids is not empty"

/-- The array with its bookkeeping; `clock` is what the calls of `get_current_timestamp` return, one after
the other. -/
structure Kax where
  maxKnownAssignedXids : Nat
  xids : Nat → TransactionId
  valid : Nat → Bool
  head : Nat
  tail : Nat
  num : Int
  transactionEndsCounter : UInt32
  lastCompressTs : Int
  clock : Nat → Int
  ticks : Nat

/-- The loop of the compression: `ci` is `compress_index`. -/
def compactLoop : Nat → Nat → Nat → (Nat → TransactionId) → (Nat → Bool) →
    (Nat → TransactionId) × (Nat → Bool) × Nat
  | 0, _, ci, xids, valid => (xids, valid, ci)
  | n + 1, i, ci, xids, valid =>
    if valid i then
      compactLoop n (i + 1) (ci + 1) (update xids ci (xids i)) (update valid ci true)
    else compactLoop n (i + 1) ci xids valid

def Kax.compact (s : Kax) : Kax :=
  let r := compactLoop (s.head - s.tail) s.tail 0 s.xids s.valid
  { s with
    xids := r.1
    valid := r.2.1
    tail := 0
    head := r.2.2
    lastCompressTs := s.clock s.ticks
    ticks := s.ticks + 1 }

def Kax.compress (s : Kax) (reason : KAXCompressReason) : Kax :=
  let nelements : Int := s.head - s.tail
  if nelements = s.num then
    if reason ≠ .noSpace then s else s.compact
  else
    match reason with
    | .transactionEnd =>
      let s' := { s with transactionEndsCounter := s.transactionEndsCounter + 1 }
      if s.transactionEndsCounter % kaxCompressFrequency ≠ 0 then s'
      else if nelements < 2 * s.num then s'
      else s'.compact
    | .startupProcessIdle =>
      if s.lastCompressTs ≠ 0 then
        let s' := { s with ticks := s.ticks + 1 }
        if s.clock s.ticks < s.lastCompressTs + kaxCompressIdleIntervalMs * 1000 then s' else s'.compact
      else s.compact
    | .noSpace => s.compact
    | .prune => s.compact

/-- The loop that stores the new ids from `head` on. -/
def storeLoop : Nat → TransactionId → Nat → (Nat → TransactionId) → (Nat → Bool) →
    (Nat → TransactionId) × (Nat → Bool)
  | 0, _, _, xids, valid => (xids, valid)
  | n + 1, nextXid, head, xids, valid =>
    storeLoop n (transactionIdAdvance nextXid) (head + 1) (update xids head nextXid) (update valid head true)

def Kax.store (s : Kax) (fromXid : TransactionId) (n : Nat) : Kax :=
  let r := storeLoop n fromXid s.head s.xids s.valid
  { s with xids := r.1, valid := r.2, num := s.num + n, head := s.head + n }

def Kax.knownAssignedXidsAdd (s : Kax) (fromXid toXid : TransactionId) : Except KaxError Kax :=
  let n := nxids fromXid toXid
  if s.tail < s.head ∧ transactionIdFollowsOrEquals (s.xids (s.head - 1)) fromXid = true then
    .error .outOfOrder
  else if s.maxKnownAssignedXids < s.head + n then
    let s' := s.compress .noSpace
    if s'.maxKnownAssignedXids < s'.head + n then .error .tooMany else .ok (s'.store fromXid n)
  else .ok (s.store fromXid n)

/-- The binary search between `first` and `stop - 1`. -/
def searchLoop (xids : Nat → TransactionId) (xid : TransactionId) : Nat → Nat → Nat → Option Nat
  | 0, _, _ => none
  | fuel + 1, first, stop =>
    if first < stop then
      let mid := (first + (stop - 1)) / 2
      if xid = xids mid then some mid
      else if transactionIdPrecedes xid (xids mid) then searchLoop xids xid fuel first mid
      else searchLoop xids xid fuel (mid + 1) stop
    else none

/-- The first marked index from `i` on, among the next `n`. -/
def skipInvalid (valid : Nat → Bool) : Nat → Nat → Nat
  | 0, i => i
  | n + 1, i => if valid i then i else skipInvalid valid n (i + 1)

/-- The tail moves to the first marked entry; an array without one starts anew. -/
def Kax.trim (s : Kax) (tail : Nat) : Kax :=
  let i := skipInvalid s.valid (s.head - tail) tail
  if s.head ≤ i then { s with head := 0, tail := 0 } else { s with tail := i }

def Kax.unmark (s : Kax) (i : Nat) : Kax := { s with valid := update s.valid i false, num := s.num - 1 }

def Kax.knownAssignedXidsSearch (s : Kax) (xid : TransactionId) (remove : Bool) : Bool × Kax :=
  match searchLoop s.xids xid (s.head - s.tail) s.tail s.head with
  | none => (false, s)
  | some i =>
    if !s.valid i then (false, s)
    else if remove then
      (true, if i = s.tail then (s.unmark i).trim (s.tail + 1) else s.unmark i)
    else (true, s)

def Kax.knownAssignedXidsRemove (s : Kax) (xid : TransactionId) : Kax := (s.knownAssignedXidsSearch xid true).2

def Kax.knownAssignedXidsRemoveTree (s : Kax) (xid : TransactionId) (subxids : List TransactionId) : Kax :=
  let s := if transactionIdIsValid xid then s.knownAssignedXidsRemove xid else s
  (subxids.foldl Kax.knownAssignedXidsRemove s).compress .transactionEnd

def Kax.knownAssignedXidsReset (s : Kax) : Kax := { s with num := 0, tail := 0, head := 0 }

/-- The loop that unmarks the entries in front of `removeXid`; prepared transactions stay. -/
def pruneLoop (xids : Nat → TransactionId) (prepared : TransactionId → Bool) (removeXid : TransactionId) :
    Nat → Nat → (Nat → Bool) → Nat → (Nat → Bool) × Nat
  | 0, _, valid, count => (valid, count)
  | n + 1, i, valid, count =>
    if valid i then
      if transactionIdFollowsOrEquals (xids i) removeXid then (valid, count)
      else if !prepared (xids i) then
        pruneLoop xids prepared removeXid n (i + 1) (update valid i false) (count + 1)
      else pruneLoop xids prepared removeXid n (i + 1) valid count
    else pruneLoop xids prepared removeXid n (i + 1) valid count

def Kax.knownAssignedXidsRemovePreceding (s : Kax) (prepared : TransactionId → Bool)
    (removeXid : TransactionId) : Kax :=
  if !transactionIdIsValid removeXid then s.knownAssignedXidsReset
  else
    let r := pruneLoop s.xids prepared removeXid (s.head - s.tail) s.tail s.valid 0
    ({ s with valid := r.1, num := s.num - r.2 }.trim s.tail).compress .prune

/-- The `n` entries from index `i` on. -/
def cells (xids : Nat → TransactionId) (valid : Nat → Bool) : Nat → Nat → List (TransactionId × Bool)
  | _, 0 => []
  | i, n + 1 => (xids i, valid i) :: cells xids valid (i + 1) n

variable {i n : Nat} {x : TransactionId}

section Cells

variable {xids : Nat → TransactionId} {valid : Nat → Bool}

theorem cells_eq (i n : Nat) : cells xids valid i n = (List.range' i n).map (fun k => (xids k, valid k)) := by
  induction n generalizing i with
  | zero => rfl
  | succ n ih => rw [cells, ih, range'_succ, map_cons]

@[simp] theorem cells_length (i n : Nat) : (cells xids valid i n).length = n := by
  simp [cells_eq]

theorem cells_succ (i n : Nat) :
    cells xids valid i (n + 1) = cells xids valid i n ++ [(xids (i + n), valid (i + n))] := by
  rw [cells_eq, cells_eq, range'_1_concat, map_append, map_singleton]

theorem mem_cells : p ∈ cells xids valid i n ↔ ∃ k, i ≤ k ∧ k < i + n ∧ p = (xids k, valid k) := by
  simp [cells_eq, and_assoc, eq_comm]

/-- The marked ids. -/
def markedIds (l : List (TransactionId × Bool)) : List TransactionId := (l.filter Prod.snd).map Prod.fst

theorem mem_markedIds : x ∈ markedIds l ↔ (x, true) ∈ l := by
  rw [markedIds, mem_map]
  constructor
  · rintro ⟨⟨y, b⟩, hp, rfl⟩
    obtain ⟨hmem, hb⟩ := mem_filter.mp hp
    rw [show b = true from hb] at hmem
    exact hmem
  · intro h
    exact ⟨(x, true), mem_filter.mpr ⟨h, rfl⟩, rfl⟩

end Cells

/-- The array shows the entries `l`, and its count is right. -/
structure Holds (s : Kax) (l : List (TransactionId × Bool)) : Prop where
  slots : cells s.xids s.valid s.tail (s.head - s.tail) = l
  order : s.tail ≤ s.head
  room : s.head ≤ s.maxKnownAssignedXids
  num : s.num = (markedIds l).length

/-- Entries in increasing order, all of them in front of `bound`. -/
structure Entries (base : TransactionId) (bound : Nat) (l : List (TransactionId × Bool)) : Prop where
  window : ∀ p ∈ l, InWindow base p.1
  increasing : l.Pairwise (fun p q => rank base p.1 < rank base q.1)
  bound : ∀ p ∈ l, rank base p.1 < bound

/-- The array is in order and its members are `m`. -/
def Shows (base : TransactionId) (bound : Nat) (s : Kax) (m : List TransactionId) : Prop :=
  ∃ l, Holds s l ∧ Entries base bound l ∧ markedIds l = m

section Operations

variable {base xid : TransactionId} {bound : Nat} {s : Kax} {l : List (TransactionId × Bool)}
  {m : List TransactionId}

theorem Holds.length (h : Holds s l) : s.head - s.tail = l.length := by
  rw [← h.slots, cells_length]

theorem Entries.sublist (h : Entries base bound l) (hsub : l'.Sublist l) : Entries base bound l' :=
  ⟨fun p hp => h.window p (hsub.subset hp), h.increasing.sublist hsub, fun p hp => h.bound p (hsub.subset hp)⟩

theorem Entries.mono (h : Entries base bound l) (hle : bound ≤ bound') : Entries base bound' l :=
  ⟨h.window, h.increasing, fun p hp => (h.bound p hp).trans_le hle⟩

section

variable (h : Shows base bound s m)
include h

theorem Shows.mono (hle : bound ≤ bound') : Shows base bound' s m := by
  obtain ⟨l, hholds, hentries, hm⟩ := h
  exact ⟨l, hholds, hentries.mono hle, hm⟩

/-- The members are in increasing order. -/
theorem Shows.increasing : m.Pairwise (fun x y => rank base x < rank base y) := by
  obtain ⟨l, -, hentries, rfl⟩ := h
  rw [markedIds, pairwise_map]
  exact (hentries.increasing.sublist filter_sublist)

theorem Shows.window (hx : x ∈ m) : InWindow base x ∧ rank base x < bound := by
  obtain ⟨l, -, hentries, rfl⟩ := h
  have hmem := mem_markedIds.mp hx
  exact ⟨hentries.window _ hmem, hentries.bound _ hmem⟩

theorem Shows.num : s.num = m.length := by
  obtain ⟨l, hholds, -, rfl⟩ := h
  exact hholds.num

end

/-- Out of space, the array is always compressed. -/
theorem compress_noSpace (s : Kax) : s.compress .noSpace = s.compact := by
  rw [Kax.compress, if_neg (not_not_intro rfl), ite_self]

/-- A compression moves the counters on and then compacts the array or leaves it. -/
theorem compress_cases (s : Kax) (reason : KAXCompressReason) :
    ∃ (ends : UInt32) (ticks : Nat), s.compress reason = { s with transactionEndsCounter := ends, ticks := ticks } ∨
        s.compress reason = Kax.compact { s with transactionEndsCounter := ends, ticks := ticks } := by
  cases reason with
  | noSpace => exact ⟨s.transactionEndsCounter, s.ticks, .inr (compress_noSpace s)⟩
  | prune =>
    refine ⟨s.transactionEndsCounter, s.ticks, ?_⟩
    rw [Kax.compress]
    split_ifs with hnum hreason
    · exact .inl rfl
    · exact absurd KAXCompressReason.noConfusion hreason
    · exact .inr rfl
  | transactionEnd =>
    rw [Kax.compress]
    split_ifs with hnum hreason
    · exact ⟨_, _, .inl rfl⟩
    · exact absurd KAXCompressReason.noConfusion hreason
    · exact ⟨s.transactionEndsCounter + 1, s.ticks, .inl rfl⟩
    · exact ⟨s.transactionEndsCounter + 1, s.ticks, .inl rfl⟩
    · exact ⟨s.transactionEndsCounter + 1, s.ticks, .inr rfl⟩
  | startupProcessIdle =>
    rw [Kax.compress]
    split_ifs with hnum hreason
    · exact ⟨_, _, .inl rfl⟩
    · exact absurd KAXCompressReason.noConfusion hreason
    · exact ⟨s.transactionEndsCounter, s.ticks + 1, .inl rfl⟩
    · exact ⟨s.transactionEndsCounter, s.ticks + 1, .inr rfl⟩
    · exact ⟨s.transactionEndsCounter, s.ticks, .inr rfl⟩

theorem Entries.append (h : Entries base bound l) (hspans : Spans x y n) (hx : InWindow base x)
    (hy : InWindow base y) (hle : rank base x ≤ rank base y) (hlow : bound ≤ rank base x) :
    Entries base (rank base y + 1) (l ++ (xidsFrom x n).map (fun z => (z, true))) := by
  have hnew : ∀ p ∈ (xidsFrom x n).map (fun z => (z, true)),
      InWindow base p.1 ∧ rank base x ≤ rank base p.1 ∧ rank base p.1 ≤ rank base y :=
    forall_mem_map.mpr fun z hz => (hspans.mem hx hy hle).mp hz
  refine ⟨?_, ?_, ?_⟩
  · intro p hp
    cases mem_append.mp hp with
    | inl hold => exact h.window p hold
    | inr hadd => exact (hnew p hadd).1
  · refine pairwise_append.mpr ⟨h.increasing, ?_, ?_⟩
    · rw [pairwise_map]
      exact hspans.increasing hx hy hle
    · intro p hp q hq
      have hpb := h.bound p hp
      have hqx := (hnew q hq).2.1
      omega
  · intro p hp
    cases mem_append.mp hp with
    | inl hold =>
      have hpb := h.bound p hold
      omega
    | inr hadd => exact Nat.lt_succ_of_le (hnew p hadd).2.2

theorem Holds.last (h : Holds s l) (hlast : l.getLast? = some p) : s.tail < s.head ∧ s.xids (s.head - 1) = p.1 := by
  have hlen := h.length
  have hne : l ≠ [] := by
    intro hnil
    rw [hnil] at hlast
    cases hlast
  have hpos := length_pos_of_ne_nil hne
  have hslots := h.slots
  rw [show s.head - s.tail = s.head - s.tail - 1 + 1 by omega, cells_succ] at hslots
  rw [← hslots, getLast?_concat, Option.some.injEq] at hlast
  refine ⟨by omega, ?_⟩
  rw [← hlast, show s.head - 1 = s.tail + (s.head - s.tail - 1) by omega]

theorem Holds.mem_slots (h : Holds s l) (hlow : s.tail ≤ k) (hhigh : k < s.head) : (s.xids k, s.valid k) ∈ l := by
  rw [← h.slots]
  exact mem_cells.mpr ⟨k, hlow, by omega, rfl⟩

theorem Holds.increasing (h : Holds s l) (he : Entries base bound l) (a b : Nat) (ha : s.tail ≤ a)
    (hab : a < b) (hb : b < s.head) : rank base (s.xids a) < rank base (s.xids b) := by
  have hinc := he.increasing
  rw [← h.slots, cells_eq, pairwise_map, pairwise_iff_getElem] at hinc
  have hlt := hinc (a - s.tail) (b - s.tail) (by simp; omega) (by simp; omega) (by omega)
  rw [getElem_range', getElem_range', Nat.one_mul, Nat.one_mul, Nat.add_sub_cancel' ha,
    Nat.add_sub_cancel' (ha.trans hab.le)] at hlt
  exact hlt

theorem Holds.window (h : Holds s l) (he : Entries base bound l) (k : Nat) (hlow : s.tail ≤ k)
    (hhigh : k < s.head) : InWindow base (s.xids k) :=
  he.window _ (h.mem_slots hlow hhigh)

theorem Shows.nodup (h : Shows base bound s m) : m.Nodup := by
  apply h.increasing.imp
  intro x y hlt heq
  rw [heq] at hlt
  exact Nat.lt_irrefl _ hlt

theorem shows_nil (hhead : s.head = 0) (htail : s.tail = 0) (hnum : s.num = 0) : Shows base 0 s [] := by
  refine ⟨[], ⟨?_, by rw [hhead, htail], by simp [hhead], hnum⟩, ⟨nofun, .nil, nofun⟩, rfl⟩
  rw [hhead, htail]
  rfl

end Operations

end KnownAssignedXids
