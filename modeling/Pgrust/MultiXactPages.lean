import Pgrust.BitField
import Pgrust.MultiXactMember

/-!
The pages of pg_multixact. An entry of the offsets is the first member slot of a multixact. Member
slots come in groups of four, a word of flag bytes before four words of transaction ids. Every access
is to an aligned word, so a page is kept as its words, by their byte offset.
-/
namespace MultiXact

open XidOrder Heap
open Function (update update_self update_of_ne)

abbrev MultiXactId := UInt32

abbrev MultiXactOffset := UInt32

def multixactOffsetsPerPage : Nat := 2048

def multixactMembersPerMembergroup : Nat := 4

def multixactMembergroupSize : Nat := 20

def multixactMembergroupsPerPage : Nat := 409

def multixactMembersPerPage : Nat := multixactMembergroupsPerPage * multixactMembersPerMembergroup

def multiXactIdToOffsetPage (multi : MultiXactId) : Nat := multi.toNat / multixactOffsetsPerPage

def multiXactIdToOffsetEntry (multi : MultiXactId) : Nat := multi.toNat % multixactOffsetsPerPage

def mxOffsetToMemberPage (offset : MultiXactOffset) : Nat := offset.toNat / multixactMembersPerPage

def mxOffsetToFlagsOffset (offset : MultiXactOffset) : Nat :=
  offset.toNat / multixactMembersPerMembergroup % multixactMembergroupsPerPage * multixactMembergroupSize

def mxOffsetToFlagsBitShift (offset : MultiXactOffset) : UInt32 :=
  UInt32.ofNat (offset.toNat % multixactMembersPerMembergroup * 8)

def mxOffsetToMemberOffset (offset : MultiXactOffset) : Nat :=
  mxOffsetToFlagsOffset offset + 4 + offset.toNat % multixactMembersPerMembergroup * 4

/-- The words of the pages. -/
abbrev Pages := Nat → Nat → UInt32

def Pages.put (pages : Pages) (pageno word : Nat) (value : UInt32) : Pages :=
  update pages pageno (update (pages pageno) word value)

/-- A new page. -/
def Pages.zero (pages : Pages) (pageno : Nat) : Pages := update pages pageno fun _ => 0

variable {pages : Pages} {value : UInt32}

theorem Pages.put_same : pages.put p w value p w = value := by
  rw [put, update_self, update_self]

theorem Pages.put_other (h : p ≠ q ∨ v ≠ w) : pages.put q w value p v = pages p v := by
  rw [put]
  obtain rfl | hp := eq_or_ne p q
  · rw [update_self, update_of_ne (h.resolve_left fun hne => hne rfl)]
  · rw [update_of_ne hp]

theorem Pages.zero_same : pages.zero p p w = 0 := by
  rw [zero, update_self]

theorem Pages.zero_other (h : p ≠ q) : pages.zero q p w = pages p w := by
  rw [zero, update_of_ne h]

def readOffsetEntry (offsets : Pages) (multi : MultiXactId) : MultiXactOffset :=
  offsets (multiXactIdToOffsetPage multi) (multiXactIdToOffsetEntry multi * 4)

def writeOffsetEntry (offsets : Pages) (multi : MultiXactId) (value : MultiXactOffset) : Pages :=
  offsets.put (multiXactIdToOffsetPage multi) (multiXactIdToOffsetEntry multi * 4) value

theorem readOffsetEntry_same (offsets : Pages) (multi : MultiXactId) (value : MultiXactOffset) :
    readOffsetEntry (writeOffsetEntry offsets multi value) multi = value :=
  Pages.put_same

theorem readOffsetEntry_other (offsets : Pages) (value : MultiXactOffset) (h : other ≠ multi) :
    readOffsetEntry (writeOffsetEntry offsets multi value) other = readOffsetEntry offsets other := by
  apply Pages.put_other
  rw [Ne, ← UInt32.toNat_inj] at h
  simp only [multiXactIdToOffsetPage, multiXactIdToOffsetEntry, multixactOffsetsPerPage]
  omega

/-- The code of a status. -/
def mxstatusToWord : MultiXactStatus → UInt32
  | .forKeyShare => 0
  | .forShare => 1
  | .forNoKeyUpdate => 2
  | .forUpdate => 3
  | .noKeyUpdate => 4
  | .update => 5

/-- Any other word is a panic. -/
def mxstatusFromWord (word : UInt32) : Option MultiXactStatus :=
  if word = 0 then some .forKeyShare
  else if word = 1 then some .forShare
  else if word = 2 then some .forNoKeyUpdate
  else if word = 3 then some .forUpdate
  else if word = 4 then some .noKeyUpdate
  else if word = 5 then some .update
  else none

def setFlags (flagsval bshift word : UInt32) : UInt32 := flagsval &&& ~~~(0xFF <<< bshift) ||| word <<< bshift

def getFlags (flagsval bshift : UInt32) : UInt32 := flagsval >>> bshift &&& 0xFF

theorem mxstatusFromWord_toWord (status : MultiXactStatus) :
    mxstatusFromWord (mxstatusToWord status) = some status := by
  cases status <;> rfl

theorem mxstatusToWord_lt (status : MultiXactStatus) : (mxstatusToWord status).toNat < 2 ^ 8 := by
  cases status <;> decide

variable {bshift word : UInt32} {offset : MultiXactOffset}

theorem getFlags_setFlags_same (flagsval : UInt32) (hword : word.toNat < 2 ^ 8)
    (hshift : bshift.toNat + 8 ≤ 32) : getFlags (setFlags flagsval bshift word) bshift = word :=
  BitField.get_set_same rfl hword flagsval hshift (by omega)

theorem getFlags_setFlags_other (flagsval : UInt32) (hword : word.toNat < 2 ^ 8)
    (hshift : bshift.toNat + 8 ≤ 32) (hother : other.toNat + 8 ≤ 32)
    (hapart : other.toNat + 8 ≤ bshift.toNat ∨ bshift.toNat + 8 ≤ other.toNat) :
    getFlags (setFlags flagsval bshift word) other = getFlags flagsval other :=
  BitField.get_set_other rfl hword flagsval (by omega) hother (by omega) hapart

def readMemberXid (pages : Pages) (offset : MultiXactOffset) : TransactionId :=
  pages (mxOffsetToMemberPage offset) (mxOffsetToMemberOffset offset)

def readMemberFlags (pages : Pages) (offset : MultiXactOffset) : UInt32 :=
  getFlags (pages (mxOffsetToMemberPage offset) (mxOffsetToFlagsOffset offset)) (mxOffsetToFlagsBitShift offset)

/-- The update of one member slot. -/
def writeMember (pages : Pages) (offset : MultiXactOffset) (m : MultiXactMember) : Pages :=
  let pages := pages.put (mxOffsetToMemberPage offset) (mxOffsetToMemberOffset offset) m.xid
  pages.put (mxOffsetToMemberPage offset) (mxOffsetToFlagsOffset offset)
    (setFlags (pages (mxOffsetToMemberPage offset) (mxOffsetToFlagsOffset offset))
      (mxOffsetToFlagsBitShift offset) (mxstatusToWord m.status))

theorem bitShift_toNat (offset) : (mxOffsetToFlagsBitShift offset).toNat = offset.toNat % 4 * 8 := by
  have hlt : offset.toNat % 4 * 8 < 2 ^ 32 := by omega
  rw [mxOffsetToFlagsBitShift, UInt32.toNat_ofNat', multixactMembersPerMembergroup, Nat.mod_eq_of_lt hlt]

/-- The words of ids are not those of flags. -/
theorem memberOffset_ne_flagsOffset (offset other : MultiXactOffset) :
    mxOffsetToMemberOffset offset ≠ mxOffsetToFlagsOffset other := by
  simp only [mxOffsetToMemberOffset, mxOffsetToFlagsOffset, multixactMembergroupSize,
    multixactMembersPerMembergroup]
  omega

theorem memberPage_eq (offset) : mxOffsetToMemberPage offset = offset.toNat / 4 / 409 :=
  (Nat.div_div_eq_div_mul offset.toNat 4 409).symm

/-- Each slot has a word of its own for the id. -/
theorem memberWord_ne (h : other ≠ offset) : mxOffsetToMemberPage other ≠ mxOffsetToMemberPage offset ∨
      mxOffsetToMemberOffset other ≠ mxOffsetToMemberOffset offset := by
  rw [Ne, ← UInt32.toNat_inj] at h
  simp only [memberPage_eq, mxOffsetToMemberOffset, mxOffsetToFlagsOffset, multixactMembergroupSize,
    multixactMembergroupsPerPage, multixactMembersPerMembergroup]
  omega

/-- Slots that share a word of flags have bytes of their own in it. -/
theorem flagByte_apart (h : other ≠ offset) (hpage : mxOffsetToMemberPage other = mxOffsetToMemberPage offset)
    (hword : mxOffsetToFlagsOffset other = mxOffsetToFlagsOffset offset) :
    other.toNat % 4 ≠ offset.toNat % 4 := by
  rw [Ne, ← UInt32.toNat_inj] at h
  simp only [memberPage_eq, mxOffsetToFlagsOffset, multixactMembergroupSize, multixactMembergroupsPerPage,
    multixactMembersPerMembergroup] at hpage hword
  omega

theorem readMemberXid_same (offset) (m : MultiXactMember) :
    readMemberXid (writeMember pages offset m) offset = m.xid := by
  rw [readMemberXid, writeMember, Pages.put_other (.inr (memberOffset_ne_flagsOffset offset offset))]
  exact Pages.put_same

theorem readMemberXid_other (m : MultiXactMember) (h : other ≠ offset) :
    readMemberXid (writeMember pages offset m) other = readMemberXid pages other := by
  rw [readMemberXid, writeMember, Pages.put_other (.inr (memberOffset_ne_flagsOffset other offset)),
    Pages.put_other (memberWord_ne h)]
  rfl

theorem readMemberFlags_same (offset) (m : MultiXactMember) :
    readMemberFlags (writeMember pages offset m) offset = mxstatusToWord m.status := by
  rw [readMemberFlags, writeMember, Pages.put_same]
  apply getFlags_setFlags_same _ (mxstatusToWord_lt m.status)
  rw [bitShift_toNat]
  omega

theorem readMemberFlags_other (m : MultiXactMember) (h : other ≠ offset) :
    readMemberFlags (writeMember pages offset m) other = readMemberFlags pages other := by
  have hxid : ∀ value, pages.put (mxOffsetToMemberPage offset) (mxOffsetToMemberOffset offset) value
      (mxOffsetToMemberPage other) (mxOffsetToFlagsOffset other) =
        pages (mxOffsetToMemberPage other) (mxOffsetToFlagsOffset other) :=
    fun value => Pages.put_other (.inr (memberOffset_ne_flagsOffset offset other).symm)
  rw [readMemberFlags, writeMember, readMemberFlags]
  by_cases hsame : mxOffsetToMemberPage other = mxOffsetToMemberPage offset ∧
      mxOffsetToFlagsOffset other = mxOffsetToFlagsOffset offset
  · have hapart := flagByte_apart h hsame.1 hsame.2
    rw [← hsame.1] at hxid ⊢
    rw [← hsame.2, Pages.put_same, getFlags_setFlags_other _ (mxstatusToWord_lt m.status), hxid]
    all_goals simp only [bitShift_toNat]; omega
  · rw [Pages.put_other (not_and_or.mp hsame), hxid]

end MultiXact
