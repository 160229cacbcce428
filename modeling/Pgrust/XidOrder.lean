import Mathlib.Data.UInt

/-!
The circular order of transaction ids. Ids of one half of the 32-bit space are ordered by their distance
from where the half begins; the three special ids are never handed out, so that counting up skips them
at the wrap-around.
-/

namespace XidOrder

open List UInt32

abbrev TransactionId := UInt32

def invalidTransactionId : TransactionId := 0

def firstNormalTransactionId : TransactionId := 3

def transactionIdIsValid (xid : TransactionId) : Bool := xid != invalidTransactionId

def transactionIdIsNormal (xid : TransactionId) : Bool := decide (firstNormalTransactionId ≤ xid)

/-- `x as i32`. -/
def asI32 (x : UInt32) : Int := if x.toNat < 2 ^ 31 then x.toNat else (x.toNat : Int) - 2 ^ 32

def transactionIdPrecedes (id1 id2 : TransactionId) : Bool :=
  if !transactionIdIsNormal id1 || !transactionIdIsNormal id2 then decide (id1 < id2)
  else decide (asI32 (id1 - id2) < 0)

def transactionIdPrecedesOrEquals (id1 id2 : TransactionId) : Bool :=
  if !transactionIdIsNormal id1 || !transactionIdIsNormal id2 then decide (id1 ≤ id2)
  else decide (asI32 (id1 - id2) ≤ 0)

def transactionIdFollows (id1 id2 : TransactionId) : Bool :=
  if !transactionIdIsNormal id1 || !transactionIdIsNormal id2 then decide (id2 < id1)
  else decide (0 < asI32 (id1 - id2))

def transactionIdFollowsOrEquals (id1 id2 : TransactionId) : Bool :=
  if !transactionIdIsNormal id1 || !transactionIdIsNormal id2 then decide (id2 ≤ id1)
  else decide (0 ≤ asI32 (id1 - id2))

def transactionIdAdvance (xid : TransactionId) : TransactionId :=
  if xid + 1 < firstNormalTransactionId then firstNormalTransactionId else xid + 1

/-- Counting down goes on from a special id to the largest one. -/
def transactionIdRetreat (xid : TransactionId) : TransactionId :=
  if firstNormalTransactionId ≤ xid - 1 then xid - 1 else 0xFFFFFFFF

/-- The later of two ids, then of a list, from its end. -/
def transactionIdLatest (mainxid : TransactionId) (xids : List TransactionId) : TransactionId :=
  xids.foldr (fun xid result => if transactionIdPrecedes result xid then xid else result) mainxid

/-- The distance of an id from the beginning of the half. -/
def rank (base xid : TransactionId) : Nat := (xid - base).toNat

/-- A normal id of the half that begins at `base`. -/
structure InWindow (base xid : TransactionId) : Prop where
  normal : 3 ≤ xid.toNat
  near : rank base xid < 2 ^ 31

variable {base a b x y : TransactionId}

theorem rank_eq (base x) : rank base x = (2 ^ 32 - base.toNat + x.toNat) % 2 ^ 32 := UInt32.toNat_sub x base

theorem rank_inj (h : rank base a = rank base b) : a = b := by
  have ha := a.toNat_lt
  have hb := b.toNat_lt
  rw [rank_eq, rank_eq] at h
  apply UInt32.toNat_inj.mp
  omega

theorem InWindow.isNormal (h : InWindow base a) : transactionIdIsNormal a = true :=
  decide_eq_true (le_iff_toNat_le.mpr h.normal)

/-- In a half the signed difference of two ids is that of their ranks. -/
theorem asI32_sub (ha : InWindow base a) (hb : InWindow base b) :
    asI32 (a - b) = (rank base a : Int) - rank base b := by
  have hnb := b.toNat_lt
  have hra := ha.near
  have hrb := hb.near
  rw [rank_eq] at hra hrb
  rw [asI32, UInt32.toNat_sub, rank_eq, rank_eq]
  split_ifs <;> omega

section

variable (ha : InWindow base a) (hb : InWindow base b)
include ha hb

theorem normal_iff (p q : Prop) [Decidable p] [Decidable q] :
    (if !transactionIdIsNormal a || !transactionIdIsNormal b then decide p else decide q) = true ↔ q := by
  simp [ha.isNormal, hb.isNormal]

theorem precedes_iff : transactionIdPrecedes a b = true ↔ rank base a < rank base b := by
  rw [transactionIdPrecedes, normal_iff ha hb, asI32_sub ha hb]
  omega

theorem precedesOrEquals_iff : transactionIdPrecedesOrEquals a b = true ↔ rank base a ≤ rank base b := by
  rw [transactionIdPrecedesOrEquals, normal_iff ha hb, asI32_sub ha hb]
  omega

end

theorem toNat_three : firstNormalTransactionId.toNat = 3 := rfl

theorem advance_toNat (x) :
    (transactionIdAdvance x).toNat = if (x.toNat + 1) % 2 ^ 32 < 3 then 3 else (x.toNat + 1) % 2 ^ 32 := by
  have hsucc : (x + 1).toNat = (x.toNat + 1) % 2 ^ 32 := UInt32.toNat_add x 1
  have hiff : x + 1 < firstNormalTransactionId ↔ (x.toNat + 1) % 2 ^ 32 < 3 := by
    rw [lt_iff_toNat_lt, hsucc, toNat_three]
  rw [transactionIdAdvance]
  by_cases hlt : x + 1 < firstNormalTransactionId
  · rw [if_pos hlt, if_pos (hiff.mp hlt)]
    rfl
  · rw [if_neg hlt, if_neg (fun h => hlt (hiff.mpr h))]
    exact hsucc

/-- The next id is the next normal one of the half. -/
theorem advance_le (hy : InWindow base y) (hlt : rank base x < rank base y) :
    InWindow base (transactionIdAdvance x) ∧ rank base x < rank base (transactionIdAdvance x) ∧
      rank base (transactionIdAdvance x) ≤ rank base y := by
  have hyn := hy.normal
  have hyl := y.toNat_lt
  rw [rank_eq, rank_eq] at hlt
  have hnext := advance_toNat x
  have hrank : rank base x < rank base (transactionIdAdvance x) ∧
      rank base (transactionIdAdvance x) ≤ rank base y := by
    rw [rank_eq, rank_eq, rank_eq, hnext]
    split_ifs <;> omega
  refine ⟨⟨?_, ?_⟩, hrank⟩
  · rw [hnext]
    split_ifs <;> omega
  · exact hrank.2.trans_lt hy.near

/-- The ids a loop of `n` turns counts through. -/
def xidsFrom : TransactionId → Nat → List TransactionId
  | _, 0 => []
  | xid, n + 1 => xid :: xidsFrom (transactionIdAdvance xid) n

/-- The loop that counts the ids up to `toXid` where the range wraps around. -/
def countLoop : Nat → TransactionId → TransactionId → Nat → Nat
  | 0, _, _, n => n
  | fuel + 1, nextXid, toXid, n =>
    if transactionIdPrecedes nextXid toXid then countLoop fuel (transactionIdAdvance nextXid) toXid (n + 1)
    else n

def nxids (fromXid toXid : TransactionId) : Nat :=
  if fromXid ≤ toXid then (toXid - fromXid).toNat + 1
  else countLoop (toXid - fromXid).toNat fromXid toXid 1

/-- Counting up from `x` reaches `y` with the `n`th id. -/
inductive Spans : TransactionId → TransactionId → Nat → Prop
  | one (x : TransactionId) : Spans x x 1
  | next {x y : TransactionId} {n : Nat} (hne : x ≠ y) (h : Spans (transactionIdAdvance x) y n) : Spans x y (n + 1)

theorem lt_of_ne (hle : rank base x ≤ rank base y) (hne : x ≠ y) : rank base x < rank base y :=
  Nat.lt_of_le_of_ne hle (fun heq => hne (rank_inj heq))

/-- The ids counted through are those from one end to the other. -/
theorem Spans.mem (h : Spans x y n) (hx : InWindow base x) (hy : InWindow base y)
    (hle : rank base x ≤ rank base y) :
    z ∈ xidsFrom x n ↔ InWindow base z ∧ rank base x ≤ rank base z ∧ rank base z ≤ rank base y := by
  induction h with
  | one =>
    rw [xidsFrom, xidsFrom, mem_singleton]
    constructor
    · rintro rfl
      exact ⟨hx, le_rfl, le_rfl⟩
    · rintro ⟨-, hlow, hhigh⟩
      exact rank_inj (Nat.le_antisymm hhigh hlow)
  | @next x y n hne h ih =>
    have hlt := lt_of_ne hle hne
    obtain ⟨hin, hup, hdown⟩ := advance_le hy hlt
    rw [xidsFrom, mem_cons, ih hin hy hdown]
    constructor
    · rintro (rfl | ⟨hz, hlow, hhigh⟩)
      · exact ⟨hx, le_rfl, hle⟩
      · exact ⟨hz, by omega, hhigh⟩
    · rintro ⟨hz, hlow, hhigh⟩
      by_cases heq : z = x
      · exact .inl heq
      · have hzlt := lt_of_ne hlow (fun h => heq h.symm)
        exact .inr ⟨hz, (advance_le hz hzlt).2.2, hhigh⟩

/-- They come in increasing order. -/
theorem Spans.increasing (h : Spans x y n) (hx : InWindow base x) (hy : InWindow base y)
    (hle : rank base x ≤ rank base y) : (xidsFrom x n).Pairwise (fun a b => rank base a < rank base b) := by
  induction h with
  | one => exact pairwise_singleton _ _
  | @next x y n hne h ih =>
    have hlt := lt_of_ne hle hne
    obtain ⟨hin, hup, hdown⟩ := advance_le hy hlt
    refine pairwise_cons.mpr ⟨?_, ih hin hy hdown⟩
    intro z hz
    have hmem := (h.mem hin hy hdown).mp hz
    omega

section

variable (hx : InWindow base x)
include hx

/-- The loop that counts up while the id is in front of `y`. -/
def advanceTo : Nat → TransactionId → TransactionId → TransactionId
  | 0, x, _ => x
  | fuel + 1, x, y => if transactionIdPrecedes x y then advanceTo fuel (transactionIdAdvance x) y else x

end

end XidOrder
