import Mathlib.Data.Nat.Bitwise
import Pgrust.XidOrder

/-!
The header of a heap tuple as the visibility rules read it: `t_xmin`, `t_xmax` and the flags of
`t_infomask`, among them the hint bits.
-/
namespace Heap

open XidOrder

/-- A flag of a mask is in it, or nothing of it. -/
theorem and_flag (hf : f.toNat = 2 ^ k) (m : UInt16) : m &&& f = 0 ∨ m &&& f = f := by
  have hand : (m &&& f).toNat = (m.toNat.testBit k).toNat * 2 ^ k := by
    rw [UInt16.toNat_and, hf, Nat.and_two_pow]
  cases hbit : m.toNat.testBit k with
  | false =>
    left
    apply UInt16.toNat_inj.mp
    rw [hand, hbit]
    exact Nat.zero_mul _
  | true =>
    right
    apply UInt16.toNat_inj.mp
    rw [hand, hbit, hf]
    exact Nat.one_mul _

theorem or_and_distrib (m f g : UInt16) : (m ||| f) &&& g = (m &&& g) ||| (f &&& g) := by
  apply UInt16.toBitVec_inj.mp
  exact BitVec.and_or_distrib_right

theorem and_or_distrib (m f g : UInt16) : m &&& (f ||| g) = (m &&& f) ||| (m &&& g) := by
  rw [UInt16.and_comm, or_and_distrib, UInt16.and_comm f, UInt16.and_comm g]

/-- Setting flags leaves the test for others alone. -/
theorem or_and_of_disjoint (h : f &&& g = 0) (m : UInt16) : (m ||| f) &&& g = m &&& g := by
  rw [or_and_distrib, h]
  exact UInt16.or_zero

def heapXmaxKeyshrLock : UInt16 := 0x0010

def heapXmaxExclLock : UInt16 := 0x0040

def heapXmaxLockOnly : UInt16 := 0x0080

def heapXmaxShrLock : UInt16 := heapXmaxExclLock ||| heapXmaxKeyshrLock

def heapLockMask : UInt16 := heapXmaxShrLock ||| heapXmaxExclLock ||| heapXmaxKeyshrLock

def heapXminCommitted : UInt16 := 0x0100

def heapXminInvalid : UInt16 := 0x0200

def heapXminFrozen : UInt16 := heapXminCommitted ||| heapXminInvalid

def heapXmaxCommitted : UInt16 := 0x0400

def heapXmaxInvalid : UInt16 := 0x0800

def heapXmaxIsMulti : UInt16 := 0x1000

def heapMovedOff : UInt16 := 0x4000

def heapMovedIn : UInt16 := 0x8000

def heapXmaxIsLockedOnly (infomask : UInt16) : Bool :=
  infomask &&& heapXmaxLockOnly != 0 || infomask &&& (heapXmaxIsMulti ||| heapLockMask) == heapXmaxExclLock

def heapLockedUpgraded (infomask : UInt16) : Bool :=
  infomask &&& heapXmaxIsMulti != 0 && infomask &&& heapXmaxLockOnly != 0 &&
    infomask &&& (heapXmaxExclLock ||| heapXmaxKeyshrLock) == 0

/-- `xvac` stands in the place of the command id when one of the `HEAP_MOVED` bits is set. -/
structure HeapTupleHeader where
  xmin : TransactionId
  xmax : TransactionId
  xvac : TransactionId
  infomask : UInt16

namespace HeapTupleHeader

variable (t : HeapTupleHeader)

/-- A single flag is set. -/
def has (flag : UInt16) : Bool := t.infomask &&& flag != 0

def set (flags : UInt16) : HeapTupleHeader := { t with infomask := t.infomask ||| flags }

def xminCommitted : Bool := t.infomask &&& heapXminCommitted != 0

def xminInvalid : Bool := t.infomask &&& (heapXminCommitted ||| heapXminInvalid) == heapXminInvalid

def xminFrozen : Bool := t.infomask &&& heapXminFrozen == heapXminFrozen

def lockedOnly : Bool := heapXmaxIsLockedOnly t.infomask

def isMulti : Bool := t.has heapXmaxIsMulti

variable {t}

@[simp] theorem xmin_set (flags : UInt16) : (t.set flags).xmin = t.xmin := rfl

@[simp] theorem xmax_set (flags : UInt16) : (t.set flags).xmax = t.xmax := rfl

theorem has_set_of_disjoint {f g : UInt16} (h : f &&& g = 0) : (t.set f).has g = t.has g := by
  rw [has, set, or_and_of_disjoint h]
  rfl

theorem has_set_self (hf : f.toNat = 2 ^ k) : (t.set f).has f = true := by
  have hne : f ≠ 0 := by
    rintro rfl
    exact absurd hf (Nat.two_pow_pos k).ne
  rw [has, set, or_and_distrib, UInt16.and_self, bne_iff_ne]
  cases and_flag hf t.infomask with
  | inl h => rwa [h, UInt16.zero_or]
  | inr h => rwa [h, UInt16.or_self]

/-- Two flags tested together. -/
theorem and_pair (hf : f.toNat = 2 ^ j) (hg : g.toNat = 2 ^ k) :
    t.infomask &&& (f ||| g) = (if t.has f then f else 0) ||| (if t.has g then g else 0) := by
  have hone : ∀ {h : UInt16} {i : Nat}, h.toNat = 2 ^ i → t.infomask &&& h = if t.has h then h else 0 := by
    intro h i hh
    rw [has]
    cases and_flag hh t.infomask with
    | inl hzero => rw [hzero]; rfl
    | inr hself =>
      have hne : h ≠ 0 := by
        rintro rfl
        exact absurd hh (Nat.two_pow_pos i).ne
      rw [hself, if_pos (bne_iff_ne.mpr hne)]
  rw [and_or_distrib, hone hf, hone hg]

theorem xminCommitted_eq : t.xminCommitted = t.has heapXminCommitted := rfl

theorem xminInvalid_eq : t.xminInvalid = (!t.has heapXminCommitted && t.has heapXminInvalid) := by
  rw [xminInvalid, and_pair (j := 8) (k := 9) rfl rfl]
  cases t.has heapXminCommitted <;> cases t.has heapXminInvalid <;> rfl

theorem xminFrozen_eq : t.xminFrozen = (t.has heapXminCommitted && t.has heapXminInvalid) := by
  rw [xminFrozen, heapXminFrozen, and_pair (j := 8) (k := 9) rfl rfl]
  cases t.has heapXminCommitted <;> cases t.has heapXminInvalid <;> rfl

/-- Flags that do not tell who locks. -/
theorem lockedOnly_set (hlock : f &&& heapXmaxLockOnly = 0)
    (hmask : f &&& (heapXmaxIsMulti ||| heapLockMask) = 0) : (t.set f).lockedOnly = t.lockedOnly := by
  rw [lockedOnly, set, heapXmaxIsLockedOnly, or_and_of_disjoint hlock, or_and_of_disjoint hmask]
  rfl

end HeapTupleHeader

end Heap
