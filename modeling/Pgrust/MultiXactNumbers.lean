import Pgrust.MultiXactStore

/-!
Ids and member slots numbered on over the wrap-around of their 32 bits, and what the making of new
pages leaves alone.
-/
namespace MultiXact

open XidOrder Heap UInt32

theorem idOf_toNat (a : Nat) : (idOf a).toNat = a % (2 ^ 32 - 1) + 1 := by
  have hlt : a % (2 ^ 32 - 1) + 1 < 2 ^ 32 := by omega
  rw [idOf, toNat_ofNat', Nat.mod_eq_of_lt hlt]

/-- Ids that are near have different numbers. -/
theorem idOf_ne (hlt : a < b) (hnear : b < a + (2 ^ 32 - 1)) : idOf a ≠ idOf b := by
  intro heq
  have htoNat := congrArg UInt32.toNat heq
  rw [idOf_toNat, idOf_toNat] at htoNat
  omega

theorem idOf_succ_toNat (a : Nat) : (idOf a + 1).toNat = (a % (2 ^ 32 - 1) + 2) % 2 ^ 32 := by
  rw [UInt32.toNat_add, idOf_toNat]
  rfl

/-- The id after an id. -/
theorem nextMultiXactId_idOf (a : Nat) : nextMultiXactId (idOf a) = idOf (a + 1) := by
  have hone : (firstMultiXactId : UInt32).toNat = 1 := rfl
  apply UInt32.toNat_inj.mp
  rw [nextMultiXactId, idOf_toNat]
  split
  case isTrue hlt =>
    rw [lt_iff_toNat_lt, idOf_succ_toNat] at hlt
    omega
  case isFalse hge =>
    rw [lt_iff_toNat_lt, idOf_succ_toNat] at hge
    rw [idOf_succ_toNat]
    omega

theorem idOf_pos (a : Nat) : idOf a ≠ 0 := by
  intro heq
  have htoNat := congrArg UInt32.toNat heq
  rw [idOf_toNat] at htoNat
  exact Nat.succ_ne_zero _ htoNat

theorem idOf_eq_one_iff (a : Nat) : idOf a = 1 ↔ a % (2 ^ 32 - 1) = 0 := by
  rw [← UInt32.toNat_inj, idOf_toNat]
  show _ = 1 ↔ _
  omega

/-- Adding one leads to the next id, or to zero before the first one. -/
theorem idOf_add_one (a : Nat) : idOf a + 1 = idOf (a + 1) ∨ idOf (a + 1) = 1 ∧ idOf a + 1 = 0 := by
  rw [idOf_eq_one_iff, ← UInt32.toNat_inj, ← UInt32.toNat_inj, idOf_succ_toNat, idOf_toNat]
  show _ ∨ _ ∧ _ = 0
  omega

theorem fixId_idOf (a : Nat) : fixId (idOf a) = idOf a := by
  have hone : (firstMultiXactId : UInt32).toNat = 1 := rfl
  rw [fixId, if_neg]
  rw [lt_iff_toNat_lt, idOf_toNat]
  omega

/-- The comparison is that of the numbers while they are near. -/
theorem multiXactIdPrecedes_idOf_false (hle : b ≤ a) (hnear : a + 1 < b + 2 ^ 31) :
    multiXactIdPrecedes (idOf a) (idOf b) = false := by
  rw [multiXactIdPrecedes, decide_eq_false_iff_not, asI32, UInt32.toNat_sub, idOf_toNat, idOf_toNat]
  have hb : b % (2 ^ 32 - 1) + (a - b) = a % (2 ^ 32 - 1) ∨
      b % (2 ^ 32 - 1) + (a - b) = a % (2 ^ 32 - 1) + (2 ^ 32 - 1) := by omega
  all_goals omega

theorem multiXactIdPrecedes_idOf_true (hlt : a < b) (hnear : b < a + 2 ^ 31) :
    multiXactIdPrecedes (idOf a) (idOf b) = true := by
  rw [multiXactIdPrecedes, decide_eq_true_iff, asI32, UInt32.toNat_sub, idOf_toNat, idOf_toNat]
  have hb : a % (2 ^ 32 - 1) + (b - a) = b % (2 ^ 32 - 1) ∨
      a % (2 ^ 32 - 1) + (b - a) = b % (2 ^ 32 - 1) + (2 ^ 32 - 1) := by omega
  all_goals omega

/-- Also when the counter stands at zero before the first id. -/
theorem multiXactIdPrecedes_idOf_zero (hlt : a < b) (hnear : b < a + 2 ^ 31) (hb : idOf b = 1) :
    multiXactIdPrecedes (idOf a) 0 = true := by
  rw [idOf_eq_one_iff] at hb
  rw [multiXactIdPrecedes, decide_eq_true_iff, asI32, UInt32.toNat_sub, idOf_toNat]
  show (if (2 ^ 32 - 0 + (a % (2 ^ 32 - 1) + 1)) % 2 ^ 32 < 2 ^ 31 then _ else _) < (0 : Int)
  all_goals omega

/-- A new page of offsets has no entry of an id that is near. -/
theorem extendMultiXactOffset_keeps (offsets : Pages) (hle : b ≤ a) (hnear : a < b + 2 ^ 31) :
    readOffsetEntry (extendMultiXactOffset offsets (idOf a + 1)) (idOf b) = readOffsetEntry offsets (idOf b) := by
  have hone : (firstMultiXactId : UInt32).toNat = 1 := rfl
  rw [extendMultiXactOffset]
  split
  case isTrue => rfl
  case isFalse hnew =>
    rw [readOffsetEntry, Pages.zero_other]
    · rfl
    · simp only [multiXactIdToOffsetEntry, ne_eq, ← UInt32.toNat_inj, idOf_succ_toNat,
        multixactOffsetsPerPage] at hnew
      rw [multiXactIdToOffsetPage, multiXactIdToOffsetPage, idOf_succ_toNat, idOf_toNat, multixactOffsetsPerPage]
      by_cases hlast : a % (2 ^ 32 - 1) + 2 = 2 ^ 32
      · omega
      · have hsmall : (a % (2 ^ 32 - 1) + 2) % 2 ^ 32 = a % (2 ^ 32 - 1) + 2 := by omega
        omega

theorem ofNat_inj_of_near (hlt : a < b) (hnear : b < a + 2 ^ 32) : UInt32.ofNat a ≠ UInt32.ofNat b := by
  intro heq
  have htoNat := congrArg UInt32.toNat heq
  rw [toNat_ofNat', toNat_ofNat'] at htoNat
  omega

theorem ofNat_add_ofNat (a b : Nat) : UInt32.ofNat a + UInt32.ofNat b = UInt32.ofNat (a + b) := by
  apply UInt32.toNat_inj.mp
  rw [UInt32.toNat_add, toNat_ofNat', toNat_ofNat', toNat_ofNat']
  omega

theorem ofNat_eq_zero_iff (a : Nat) : UInt32.ofNat a = 0 ↔ a % 2 ^ 32 = 0 := by
  rw [← UInt32.toNat_inj]
  rfl

theorem beginning_mod (p : Nat) : beginning p % 2 ^ 32 ≠ 0 := by
  rw [beginning]
  split <;> omega

theorem beginning_ge (p : Nat) : p ≤ beginning p := by
  rw [beginning]
  split <;> omega

/-- Where the code lets the next multixact begin. -/
theorem nextMemberOffset_ofNat (p n : Nat) :
    nextMemberOffset (UInt32.ofNat p) n = UInt32.ofNat (beginning (p + n)) := by
  rw [nextMemberOffset, ofNat_add_ofNat, beginning]
  by_cases hzero : (p + n) % 2 ^ 32 = 0
  · rw [if_pos ((ofNat_eq_zero_iff _).mpr hzero), if_pos hzero]
    apply UInt32.toNat_inj.mp
    rw [toNat_ofNat']
    show 1 = _
    omega
  · rw [if_neg (fun h => hzero ((ofNat_eq_zero_iff _).mp h)), if_neg hzero]

/-- And where it lets it begin when it allocates it. -/
theorem firstSlot_ofNat (p : Nat) :
    (if UInt32.ofNat p = 0 then 1 else UInt32.ofNat p) = UInt32.ofNat (beginning p) := by
  have h := nextMemberOffset_ofNat p 0
  rw [nextMemberOffset, ofNat_add_ofNat] at h
  exact h

theorem slotsFor_ofNat (p n : Nat) : p + slotsFor (UInt32.ofNat p) n = beginning p + n := by
  rw [slotsFor, beginning]
  by_cases hzero : p % 2 ^ 32 = 0
  · rw [if_pos ((ofNat_eq_zero_iff p).mpr hzero), if_pos hzero]
    omega
  · rw [if_neg (fun h => hzero ((ofNat_eq_zero_iff p).mp h)), if_neg hzero]

/-- The length of a multixact comes out of two offsets. -/
theorem rounds_ofNat (hlt : b < 2 ^ 31) : rounds (UInt32.ofNat (a + b) - UInt32.ofNat a) = b := by
  have htoNat : (UInt32.ofNat (a + b) - UInt32.ofNat a).toNat = b := by
    rw [UInt32.toNat_sub, toNat_ofNat', toNat_ofNat']
    omega
  rw [rounds, asI32, htoNat, if_pos hlt]
  rfl

/-- The slots of a page. -/
theorem memberPage_ofNat (p : Nat) : mxOffsetToMemberPage (UInt32.ofNat p) = p % 2 ^ 32 / 1636 := by
  rfl

/-- The test for the first slot of a page. -/
theorem pageStart_iff (p : Nat) :
    mxOffsetToFlagsOffset (UInt32.ofNat p) = 0 ∧ mxOffsetToFlagsBitShift (UInt32.ofNat p) = 0 ↔
      p % 2 ^ 32 % 1636 = 0 := by
  rw [← UInt32.toNat_inj, bitShift_toNat, mxOffsetToFlagsOffset, toNat_ofNat',
    multixactMembersPerMembergroup, multixactMembergroupsPerPage, multixactMembergroupSize]
  show _ ∧ _ = 0 ↔ _
  omega

/-- A round of the loop does not go beyond the page, nor beyond the wrap-around. -/
theorem memberDifference_ofNat (p : Nat) : memberDifference (UInt32.ofNat p) =
      if 2 ^ 32 ≤ p % 2 ^ 32 + 1036 then 2 ^ 32 - p % 2 ^ 32 else 1636 - p % 2 ^ 32 % 1636 := by
  have hmax : UInt32.ofNat maxMembersInLastMembersPage = UInt32.ofNat 1036 := rfl
  have hiff : UInt32.ofNat p + UInt32.ofNat maxMembersInLastMembersPage < UInt32.ofNat p ↔
      2 ^ 32 ≤ p % 2 ^ 32 + 1036 := by
    rw [lt_iff_toNat_lt, hmax, UInt32.toNat_add, toNat_ofNat', toNat_ofNat']
    omega
  rw [memberDifference]
  by_cases hlast : 2 ^ 32 ≤ p % 2 ^ 32 + 1036
  · rw [if_pos (hiff.mpr hlast), if_pos hlast, toNat_ofNat']
    omega
  · rw [if_neg (fun h => hlast (hiff.mp h)), if_neg hlast]
    rfl

/-- A round ends at the next beginning of a page at the latest. -/
theorem memberDifference_spec (p : Nat) : 0 < memberDifference (UInt32.ofNat p) ∧
      ∀ x, p < x → x < p + memberDifference (UInt32.ofNat p) → x % 2 ^ 32 % 1636 ≠ 0 := by
  rw [memberDifference_ofNat]
  split
  case isTrue hlast =>
    refine ⟨by omega, fun x hlt hend => ?_⟩
    have hx : x % 2 ^ 32 = p % 2 ^ 32 + (x - p) := by omega
    omega
  case isFalse hearly =>
    refine ⟨by omega, fun x hlt hend => ?_⟩
    have hx : x % 2 ^ 32 = p % 2 ^ 32 + (x - p) := by omega
    omega

/-- New pages of members leave alone every page that does not begin among the new slots. -/
theorem extendLoop_keeps (q w : Nat) (fuel : Nat) (pages : Pages) (p n : Nat)
    (hq : ∀ x, p ≤ x → x < p + n → x % 2 ^ 32 % 1636 = 0 → x % 2 ^ 32 / 1636 ≠ q) :
    extendMultiXactMemberLoop fuel pages (UInt32.ofNat p) n q w = pages q w := by
  induction fuel generalizing pages p n with
  | zero => rfl
  | succ fuel ih =>
    rw [extendMultiXactMemberLoop]
    split
    case isTrue => rfl
    case isFalse hn =>
      rw [ofNat_add_ofNat, ih]
      · split
        case isTrue hstart =>
          apply Pages.zero_other
          exact (hq p (Nat.le_refl p) (by omega) ((pageStart_iff p).mp hstart)).symm
        case isFalse => rfl
      · intro x hle hlt
        exact hq x (by omega) (by omega)

/-- A page that begins among the new slots is new. -/
theorem extendLoop_zero (q w : Nat) (fuel : Nat) (pages : Pages) (p n x : Nat) (hfuel : n ≤ fuel)
    (hle : p ≤ x) (hlt : x < p + n) (hstart : x % 2 ^ 32 % 1636 = 0) (hpage : x % 2 ^ 32 / 1636 = q)
    (honce : n ≤ 2 ^ 32) : extendMultiXactMemberLoop fuel pages (UInt32.ofNat p) n q w = 0 := by
  induction fuel generalizing pages p n with
  | zero => omega
  | succ fuel ih =>
    have hspec := memberDifference_spec p
    rw [extendMultiXactMemberLoop, if_neg (by omega), ofNat_add_ofNat]
    obtain rfl | hhere := eq_or_ne x p
    · rw [if_pos ((pageStart_iff x).mpr hstart), memberPage_ofNat, hpage, extendLoop_keeps]
      · exact Pages.zero_same
      · omega
    · have hfar : p + memberDifference (UInt32.ofNat p) ≤ x := by
        by_contra hnear
        exact hspec.2 x (by omega) (by omega) hstart
      exact ih _ _ _ (by omega) hfar (by omega) (by omega)

/-- The new slots and a page more do not reach round to a slot in use. -/
theorem extendMultiXactMember_keeps (pages : Pages) (hold : oldest ≤ x) (hx : x < p)
    (hroom : p + n + 1636 ≤ oldest + 2 ^ 32) (w : Nat) :
    extendMultiXactMember pages (UInt32.ofNat p) n (mxOffsetToMemberPage (UInt32.ofNat x)) w =
      pages (mxOffsetToMemberPage (UInt32.ofNat x)) w := by
  apply extendLoop_keeps
  rw [memberPage_ofNat]
  omega

/-- The first slot of all is new when the slots begin again with it. -/
theorem extendMultiXactMember_zero (pages : Pages) (hp : p % 2 ^ 32 = 0) (hn : 0 < n) (honce : n ≤ 2 ^ 32) :
    readMemberXid (extendMultiXactMember pages (UInt32.ofNat p) n) 0 = 0 := by
  apply extendLoop_zero _ _ n pages p n p (Nat.le_refl n) (Nat.le_refl p) (by omega) (by omega)
  · rw [hp]
    rfl
  · exact honce

end MultiXact
