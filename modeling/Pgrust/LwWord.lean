import Mathlib.Data.Nat.Bitwise

/-!
The state word of an `LWLock`: three flags on top, the exclusive bit, and the count of shared
attempts and holders. `Fields.word` packs the parts; the operations the lock performs on the word
are operations on the parts.
-/
namespace LwWord

open Nat UInt32

section Bits

variable {k a b c d : Nat}

theorem two_pow_mul_add_and (hb : b < 2 ^ k) (hd : d < 2 ^ k) :
    (2 ^ k * a + b) &&& (2 ^ k * c + d) = 2 ^ k * (a &&& c) + (b &&& d) := by
  have hbd : b &&& d < 2 ^ k := lt_of_le_of_lt and_le_left hb
  apply eq_of_testBit_eq
  intro j
  rw [testBit_and, testBit_two_pow_mul_add _ hb, testBit_two_pow_mul_add _ hd,
    testBit_two_pow_mul_add _ hbd]
  split_ifs with hj
  · rw [testBit_and]
  · rw [testBit_and]

theorem two_pow_mul_add_or (hb : b < 2 ^ k) : (2 ^ k * a + b) ||| (2 ^ k * c) = 2 ^ k * (a ||| c) + b := by
  have hzero : 0 < 2 ^ k := Nat.two_pow_pos k
  apply eq_of_testBit_eq
  intro j
  rw [testBit_or, ← Nat.add_zero (2 ^ k * c), testBit_two_pow_mul_add _ hb,
    testBit_two_pow_mul_add _ hzero, testBit_two_pow_mul_add _ hb]
  split_ifs with hj
  · rw [zero_testBit, Bool.or_false]
  · rw [testBit_or]

end Bits

def maxBackends : Nat := 2 ^ 18 - 1

def lwFlagHasWaiters : UInt32 := 0x80000000

def lwFlagReleaseOk : UInt32 := 0x40000000

def lwFlagLocked : UInt32 := 0x20000000

def lwValExclusive : UInt32 := 0x40000

def lwValShared : UInt32 := 1

def lwSharedMask : UInt32 := 0x3FFFF

def lwLockMask : UInt32 := 0x7FFFF

/-- The parts of the state word. -/
structure Fields where
  hasWaiters : Bool
  releaseOk : Bool
  locked : Bool
  exclusive : Bool
  shared : Nat

/-- Three flags as a number. -/
def flagBits (hasWaiters releaseOk locked : Bool) : Nat := 4 * hasWaiters.toNat + 2 * releaseOk.toNat + locked.toNat

def Fields.flags (F : Fields) : Nat := flagBits F.hasWaiters F.releaseOk F.locked

/-- The bits that say who has the lock. -/
def Fields.owners (F : Fields) : Nat := 2 ^ 18 * F.exclusive.toNat + F.shared

def Fields.word (F : Fields) : UInt32 := UInt32.ofNat (2 ^ 29 * F.flags + F.owners)

/-- The count has not run into the exclusive bit. -/
def Fields.Fits (F : Fields) : Prop := F.shared ≤ maxBackends

variable {F : Fields}

theorem Fields.flags_lt (F : Fields) : F.flags < 8 := by
  have hw := Bool.toNat_le F.hasWaiters
  have hr := Bool.toNat_le F.releaseOk
  have hl := Bool.toNat_le F.locked
  rw [Fields.flags, flagBits]
  omega

theorem ofNat_eq_zero (h : n < 2 ^ 32) : UInt32.ofNat n = 0 ↔ n = 0 := by
  rw [← UInt32.toNat_inj, toNat_ofNat', mod_eq_of_lt h]
  rfl

/-- Somebody has the lock, or tries to share it. -/
def Fields.Busy (F : Fields) : Prop := F.exclusive = true ∨ 0 < F.shared

/-- The exclusive bit is one of the bits that say who has the lock. -/
theorem mask_ne_zero_of_exclusive (h : word &&& lwValExclusive ≠ 0) : word &&& lwLockMask ≠ 0 := by
  intro hmask
  apply h
  rw [show lwValExclusive = lwLockMask &&& lwValExclusive from rfl, ← UInt32.and_assoc, hmask, UInt32.zero_and]

/-- The test after a release or a back-out: there are waiters that may be woken, and nobody has
the lock. -/
def checkWaiters (state : UInt32) : Bool :=
  state &&& (lwFlagHasWaiters ||| lwFlagReleaseOk) == lwFlagHasWaiters ||| lwFlagReleaseOk &&
    state &&& lwLockMask == 0

theorem Fields.word_add_shared (F : Fields) : F.word + lwValShared = { F with shared := F.shared + 1 }.word := by
  rw [show lwValShared = UInt32.ofNat 1 from rfl, Fields.word, ← ofNat_add]
  rfl

theorem Fields.word_sub_shared (hpos : 0 < F.shared) :
    F.word - lwValShared = { F with shared := F.shared - 1 }.word := by
  have hback : { F with shared := F.shared - 1 + 1 } = F := by
    rw [Nat.sub_add_cancel hpos]
  have hadd := Fields.word_add_shared { F with shared := F.shared - 1 }
  rw [hback] at hadd
  rw [← hadd, UInt32.add_sub_cancel]

theorem Fields.word_add_exclusive (hfree : F.exclusive = false) :
    F.word + lwValExclusive = { F with exclusive := true }.word := by
  rw [show lwValExclusive = UInt32.ofNat (2 ^ 18) from rfl, Fields.word, ← ofNat_add,
    Fields.word, Fields.owners, Fields.owners, hfree]
  congr 1
  simp only [Fields.flags, Bool.toNat_true, Bool.toNat_false]
  omega

theorem Fields.word_sub_exclusive (hheld : F.exclusive = true) :
    F.word - lwValExclusive = { F with exclusive := false }.word := by
  have hadd := @Fields.word_add_exclusive { F with exclusive := false } rfl
  have hback : { F with exclusive := true } = F := by
    rw [← hheld]
  rw [hback] at hadd
  rw [← hadd, UInt32.add_sub_cancel]

/-- The word after `LWLockWakeup`. -/
def wakeWord (newReleaseOk empty : Bool) (state : UInt32) : UInt32 :=
  let state := if newReleaseOk then state ||| lwFlagReleaseOk else state &&& ~~~lwFlagReleaseOk
  let state := if empty then state &&& ~~~lwFlagHasWaiters else state
  state &&& ~~~lwFlagLocked

namespace Fields.Fits

variable (h : F.Fits)

include h

theorem lt : F.shared < 2 ^ 18 := by
  rw [Fields.Fits, maxBackends] at h
  omega

theorem owners_lt : F.owners < 2 ^ 19 := by
  have he := Bool.toNat_le F.exclusive
  have hs := h.lt
  rw [Fields.owners]
  omega

theorem owners_lt_flags : F.owners < 2 ^ 29 := by
  have hlt := h.owners_lt
  omega

/-- The word as masked by something below the flags. -/
theorem word_and_low (hd : d < 2 ^ 29) : F.word &&& UInt32.ofNat d = UInt32.ofNat (F.owners &&& d) := by
  have hlow := h.owners_lt_flags
  have hand := @two_pow_mul_add_and 29 F.flags F.owners 0 d hlow hd
  rw [and_zero, Nat.mul_zero, Nat.zero_add, Nat.zero_add] at hand
  rw [Fields.word, ← ofNat_and, hand]

/-- The word as masked by a combination of flags. -/
theorem word_and_flags (g : Nat) :
    F.word &&& UInt32.ofNat (2 ^ 29 * g) = UInt32.ofNat (2 ^ 29 * (F.flags &&& g)) := by
  have hlow := h.owners_lt_flags
  have hand := @two_pow_mul_add_and 29 F.flags F.owners g 0 hlow (by omega)
  rw [and_zero, Nat.add_zero, Nat.add_zero] at hand
  rw [Fields.word, ← ofNat_and, hand]

/-- The word with all but a combination of flags kept. -/
theorem word_and_keep (g : Nat) :
    F.word &&& UInt32.ofNat (2 ^ 29 * g + (2 ^ 29 - 1)) = UInt32.ofNat (2 ^ 29 * (F.flags &&& g) + F.owners) := by
  have hlow := h.owners_lt_flags
  have hand := @two_pow_mul_add_and 29 F.flags F.owners g (2 ^ 29 - 1) hlow (by omega)
  rw [and_two_pow_sub_one_eq_mod, mod_eq_of_lt hlow] at hand
  rw [Fields.word, ← ofNat_and, hand]

theorem word_or_flags (g : Nat) :
    F.word ||| UInt32.ofNat (2 ^ 29 * g) = UInt32.ofNat (2 ^ 29 * (F.flags ||| g) + F.owners) := by
  have hlow := h.owners_lt_flags
  rw [Fields.word, ← ofNat_or, two_pow_mul_add_or hlow]

theorem and_flags_eq_zero : F.word &&& UInt32.ofNat (2 ^ 29 * g) = 0 ↔ F.flags &&& g = 0 := by
  have hle : F.flags &&& g ≤ F.flags := and_le_left
  have hlt := F.flags_lt
  rw [h.word_and_flags, ofNat_eq_zero (by omega)]
  omega

theorem hasWaiters_test : F.word &&& lwFlagHasWaiters = 0 ↔ F.hasWaiters = false := by
  have hflags : ∀ w r l, flagBits w r l &&& 4 = 0 ↔ w = false := by decide
  rw [show lwFlagHasWaiters = UInt32.ofNat (2 ^ 29 * 4) from rfl, h.and_flags_eq_zero]
  exact hflags _ _ _

theorem locked_test : F.word &&& lwFlagLocked = 0 ↔ F.locked = false := by
  have hflags : ∀ w r l, flagBits w r l &&& 1 = 0 ↔ l = false := by decide
  rw [show lwFlagLocked = UInt32.ofNat (2 ^ 29 * 1) from rfl, h.and_flags_eq_zero]
  exact hflags _ _ _

theorem exclusive_test : F.word &&& lwValExclusive = 0 ↔ F.exclusive = false := by
  have hand := @two_pow_mul_add_and 18 F.exclusive.toNat F.shared 1 0 h.lt (by omega)
  rw [and_zero, Nat.add_zero] at hand
  rw [show lwValExclusive = UInt32.ofNat (2 ^ 18 * 1) from rfl, h.word_and_low (by omega), Fields.owners, hand]
  cases F.exclusive <;> decide

theorem mask_test : F.word &&& lwLockMask = 0 ↔ F.exclusive = false ∧ F.shared = 0 := by
  have hlt := h.owners_lt
  rw [show lwLockMask = UInt32.ofNat (2 ^ 19 - 1) from rfl, h.word_and_low (by omega),
    and_two_pow_sub_one_eq_mod, mod_eq_of_lt hlt, ofNat_eq_zero (by omega)]
  rw [Fields.owners]
  cases F.exclusive
  · simp only [Bool.toNat_false, true_and]
    omega
  · simp only [Bool.toNat_true, Bool.true_eq_false, false_and, iff_false]
    omega

theorem busy_of_mask (hmask : F.word &&& lwLockMask ≠ 0) : F.Busy := by
  rw [Ne, h.mask_test] at hmask
  cases hx : F.exclusive with
  | true => exact .inl hx
  | false => exact .inr (Nat.pos_of_ne_zero fun hzero => hmask ⟨hx, hzero⟩)

/-- The shared count that the word shows. -/
theorem shared_count : (F.word &&& lwSharedMask).toNat = F.shared := by
  have hlt := h.lt
  have hand := @two_pow_mul_add_and 18 F.exclusive.toNat F.shared 0 (2 ^ 18 - 1) hlt (by omega)
  rw [and_zero, Nat.mul_zero, Nat.zero_add, Nat.zero_add, and_two_pow_sub_one_eq_mod F.shared,
    mod_eq_of_lt hlt] at hand
  rw [show lwSharedMask = UInt32.ofNat (2 ^ 18 - 1) from rfl, h.word_and_low (by omega),
    Fields.owners, hand, toNat_ofNat', mod_eq_of_lt (by omega)]

theorem checkWaiters_test :
    checkWaiters F.word = (F.hasWaiters && F.releaseOk && !F.exclusive && decide (F.shared = 0)) := by
  have hflags : F.word &&& UInt32.ofNat (2 ^ 29 * 6) = UInt32.ofNat (2 ^ 29 * 6) ↔
      F.hasWaiters = true ∧ F.releaseOk = true := by
    have hbits : ∀ w r l, UInt32.ofNat (2 ^ 29 * (flagBits w r l &&& 6)) = UInt32.ofNat (2 ^ 29 * 6) ↔
        w = true ∧ r = true := by decide
    rw [h.word_and_flags]
    exact hbits _ _ _
  rw [checkWaiters, show lwFlagHasWaiters ||| lwFlagReleaseOk = UInt32.ofNat (2 ^ 29 * 6) from rfl, Bool.eq_iff_iff]
  simp only [Bool.and_eq_true, beq_iff_eq, decide_eq_true_eq, Bool.not_eq_true', hflags, h.mask_test]
  exact and_assoc.symm

/-- Setting flags, and keeping some. -/
theorem word_or_eq {G : Fields} (g : Nat) (hflags : F.flags ||| g = G.flags)
    (howners : F.owners = G.owners) : F.word ||| UInt32.ofNat (2 ^ 29 * g) = G.word := by
  rw [h.word_or_flags, hflags, howners, Fields.word]

theorem word_keep_eq {G : Fields} (g : Nat) (hflags : F.flags &&& g = G.flags)
    (howners : F.owners = G.owners) : F.word &&& UInt32.ofNat (2 ^ 29 * g + (2 ^ 29 - 1)) = G.word := by
  rw [h.word_and_keep, hflags, howners, Fields.word]

theorem word_or_hasWaiters : F.word ||| lwFlagHasWaiters = { F with hasWaiters := true }.word := by
  have hflags : ∀ w r l, flagBits w r l ||| 4 = flagBits true r l := by decide
  exact h.word_or_eq 4 (hflags _ _ _) rfl

theorem word_or_releaseOk : F.word ||| lwFlagReleaseOk = { F with releaseOk := true }.word := by
  have hflags : ∀ w r l, flagBits w r l ||| 2 = flagBits w true l := by decide
  exact h.word_or_eq 2 (hflags _ _ _) rfl

theorem word_or_locked : F.word ||| lwFlagLocked = { F with locked := true }.word := by
  have hflags : ∀ w r l, flagBits w r l ||| 1 = flagBits w r true := by decide
  exact h.word_or_eq 1 (hflags _ _ _) rfl

theorem word_clear_hasWaiters : F.word &&& ~~~lwFlagHasWaiters = { F with hasWaiters := false }.word := by
  have hflags : ∀ w r l, flagBits w r l &&& 3 = flagBits false r l := by decide
  exact h.word_keep_eq 3 (hflags _ _ _) rfl

theorem word_clear_releaseOk : F.word &&& ~~~lwFlagReleaseOk = { F with releaseOk := false }.word := by
  have hflags : ∀ w r l, flagBits w r l &&& 5 = flagBits w false l := by decide
  exact h.word_keep_eq 5 (hflags _ _ _) rfl

theorem word_clear_locked : F.word &&& ~~~lwFlagLocked = { F with locked := false }.word := by
  have hflags : ∀ w r l, flagBits w r l &&& 6 = flagBits w r false := by decide
  exact h.word_keep_eq 6 (hflags _ _ _) rfl

theorem wakeWord_word (newReleaseOk empty : Bool) : wakeWord newReleaseOk empty F.word =
      { F with hasWaiters := F.hasWaiters && !empty, releaseOk := newReleaseOk, locked := false }.word := by
  have hok : (if newReleaseOk then F.word ||| lwFlagReleaseOk else F.word &&& ~~~lwFlagReleaseOk) =
      { F with releaseOk := newReleaseOk }.word := by
    cases newReleaseOk with
    | true => exact h.word_or_releaseOk
    | false => exact h.word_clear_releaseOk
  have hfits : { F with releaseOk := newReleaseOk }.Fits := h
  rw [wakeWord, hok]
  cases empty with
  | true =>
    rw [Bool.not_true, Bool.and_false]
    rw [hfits.word_clear_hasWaiters]
    exact Fields.Fits.word_clear_locked hfits
  | false =>
    rw [Bool.not_false, Bool.and_true]
    exact hfits.word_clear_locked

end Fields.Fits

end LwWord
