import Mathlib.Data.Nat.Bitwise
import Mathlib.Data.UInt

/-!
Fields of a few bits in a 32-bit word, set and read with a mask of ones that is shifted to them. Setting
one field leaves those apart from it alone.
-/
namespace BitField

open Nat

variable {mask shift field word : UInt32} {w : Nat}

def set (mask word shift field : UInt32) : UInt32 := word &&& ~~~(mask <<< shift) ||| field <<< shift

def get (mask word shift : UInt32) : UInt32 := word >>> shift &&& mask

/-- What is read of a byte is read of the word that it was cut from. -/
theorem testBit_byte (word : UInt32) (hk : k < 8) :
    word.toUInt8.toUInt32.toNat.testBit k = word.toNat.testBit k := by
  rw [UInt8.toNat_toUInt32, UInt32.toNat_toUInt8, testBit_mod_two_pow, decide_eq_true hk, Bool.true_and]

variable (hmask : mask.toNat = 2 ^ w - 1)

include hmask

theorem testBit_get (word) (hshift : shift.toNat < 32) (k : Nat) :
    (get mask word shift).toNat.testBit k = (word.toNat.testBit (shift.toNat + k) && decide (k < w)) := by
  rw [get, UInt32.toNat_and, testBit_and, UInt32.toNat_shiftRight, mod_eq_of_lt hshift,
    testBit_shiftRight, hmask, testBit_two_pow_sub_one]

/-- A field is read from the bits it has. -/
theorem get_eq (hshift : shift.toNat < 32)
    (h : ∀ k, shift.toNat ≤ k → k < shift.toNat + w → word.toNat.testBit k = word'.toNat.testBit k) :
    get mask word shift = get mask word' shift := by
  apply UInt32.toNat_inj.mp
  apply eq_of_testBit_eq
  intro k
  rw [testBit_get hmask _ hshift, testBit_get hmask _ hshift]
  by_cases hk : k < w
  · rw [h _ (by omega) (by omega)]
  · rw [decide_eq_false hk, Bool.and_false, Bool.and_false]

variable (hfield : field.toNat < 2 ^ w)

include hfield

omit hmask in
theorem testBit_field (hk : w ≤ k) : field.toNat.testBit k = false :=
  testBit_lt_two_pow (lt_of_lt_of_le hfield (Nat.pow_le_pow_right (by omega) hk))

theorem testBit_set (word) (hshift : shift.toNat < 32) (hk : k < 32) : (set mask word shift field).toNat.testBit k =
      if shift.toNat ≤ k ∧ k < shift.toNat + w then field.toNat.testBit (k - shift.toNat)
      else word.toNat.testBit k := by
  have hlt : (mask <<< shift).toNat < 2 ^ 32 := UInt32.toNat_lt _
  have hnot : (~~~(mask <<< shift)).toNat = 2 ^ 32 - ((mask <<< shift).toNat + 1) := by
    rw [UInt32.toNat_not, UInt32.size]
    omega
  rw [set, UInt32.toNat_or, UInt32.toNat_and, hnot, testBit_or, testBit_and,
    testBit_two_pow_sub_succ hlt, UInt32.toNat_shiftLeft, UInt32.toNat_shiftLeft,
    testBit_mod_two_pow, testBit_mod_two_pow,
    mod_eq_of_lt hshift, hmask]
  by_cases hle : shift.toNat ≤ k
  · by_cases hin : k - shift.toNat < w
    · simp [hk, hle, hin, show k < shift.toNat + w by omega]
    · simp [hk, hin, show ¬ k < shift.toNat + w by omega, testBit_field hfield (Nat.not_lt.mp hin)]
  · simp [hk, hle]

theorem get_set_same (word) (hshift : shift.toNat + w ≤ 32) (hlt : shift.toNat < 32) :
    get mask (set mask word shift field) shift = field := by
  apply UInt32.toNat_inj.mp
  apply eq_of_testBit_eq
  intro k
  rw [testBit_get hmask _ hlt]
  by_cases hk : k < w
  · rw [testBit_set hmask hfield word hlt (by omega), if_pos (by omega), decide_eq_true hk,
      Bool.and_true, Nat.add_sub_cancel_left]
  · rw [decide_eq_false hk, Bool.and_false, testBit_field hfield (Nat.not_lt.mp hk)]

theorem get_set_other (word) (hshift : shift.toNat < 32) (hshift' : shift'.toNat + w ≤ 32)
    (hlt : shift'.toNat < 32) (hapart : shift'.toNat + w ≤ shift.toNat ∨ shift.toNat + w ≤ shift'.toNat) :
    get mask (set mask word shift field) shift' = get mask word shift' := by
  apply get_eq hmask hlt
  intro k hlow hhigh
  rw [testBit_set hmask hfield word hshift (by omega), if_neg (by omega)]

end BitField
