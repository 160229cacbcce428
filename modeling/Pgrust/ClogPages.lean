import Pgrust.BitField
import Pgrust.XidOrder

/-!
The pages of pg_xact. A byte holds the statuses of four transactions, two bits each; setting one
status leaves the others alone.
-/
namespace Clog

open XidOrder

inductive XidStatus
  | inProgress
  | committed
  | aborted
  | subCommitted
  deriving DecidableEq

/-- `TRANSACTION_STATUS_*`. -/
def XidStatus.code : XidStatus → UInt32
  | inProgress => 0
  | committed => 1
  | aborted => 2
  | subCommitted => 3

def XidStatus.ofCode (code : UInt32) : XidStatus :=
  if code = 1 then committed else if code = 2 then aborted else if code = 3 then subCommitted
  else inProgress

def clogBitsPerXact : Nat := 2

def clogXactsPerByte : Nat := 4

def clogXactsPerPage : Nat := 8192 * clogXactsPerByte

def clogXactBitmask : UInt32 := 3

def transactionIdToPage (xid : TransactionId) : Nat := xid.toNat / clogXactsPerPage

def transactionIdToPgIndex (xid : TransactionId) : Nat := xid.toNat % clogXactsPerPage

def transactionIdToByte (xid : TransactionId) : Nat := transactionIdToPgIndex xid / clogXactsPerByte

def transactionIdToBIndex (xid : TransactionId) : Nat := xid.toNat % clogXactsPerByte

/-- Where the two bits of a transaction begin in their byte. -/
def bshift (xid : TransactionId) : UInt32 := UInt32.ofNat (transactionIdToBIndex xid * clogBitsPerXact)

/-- The bytes of the pages. -/
abbrev Pages := Nat → Nat → UInt8

def setBits (byte : UInt8) (shift : UInt32) (status : XidStatus) : UInt8 :=
  ((byte.toUInt32 &&& ~~~(3 <<< shift)) ||| (status.code <<< shift)).toUInt8

def getBits (byte : UInt8) (shift : UInt32) : XidStatus := .ofCode ((byte.toUInt32 >>> shift) &&& clogXactBitmask)

/-- The update of one status in the page `pageno`, outside recovery. -/
def transactionIdSetStatusBit (pages : Pages) (pageno : Nat) (xid : TransactionId) (status : XidStatus) : Pages :=
  Function.update pages pageno (Function.update (pages pageno) (transactionIdToByte xid)
      (setBits (pages pageno (transactionIdToByte xid)) (bshift xid) status))

def transactionIdGetStatus (pages : Pages) (xid : TransactionId) : XidStatus :=
  getBits (pages (transactionIdToPage xid) (transactionIdToByte xid)) (bshift xid)

theorem ofCode_code (status : XidStatus) : .ofCode status.code = status := by
  cases status <;> rfl

theorem code_lt (status : XidStatus) : status.code.toNat < 2 ^ 2 := by
  cases status <;> decide

theorem bshift_toNat (xid : TransactionId) : (bshift xid).toNat = 2 * (xid.toNat % 4) := by
  have hlt : xid.toNat % 4 * 2 < 2 ^ 32 := by omega
  rw [bshift, UInt32.toNat_ofNat', transactionIdToBIndex, clogXactsPerByte, clogBitsPerXact,
    Nat.mod_eq_of_lt hlt, Nat.mul_comm]

theorem setBits_eq (byte : UInt8) (shift : UInt32) (status : XidStatus) :
    setBits byte shift status = (BitField.set 3 byte.toUInt32 shift status.code).toUInt8 := rfl

theorem getBits_eq (byte : UInt8) (shift : UInt32) :
    getBits byte shift = .ofCode (BitField.get 3 byte.toUInt32 shift) := rfl

variable {shift : UInt32}

theorem get_byte (word : UInt32) (hshift : shift.toNat + 2 ≤ 8) :
    BitField.get 3 word.toUInt8.toUInt32 shift = BitField.get 3 word shift :=
  BitField.get_eq (w := 2) rfl (by omega) fun _ _ _ => BitField.testBit_byte word (by omega)

theorem getBits_setBits_same (byte : UInt8) (status : XidStatus) (hshift : shift.toNat + 2 ≤ 8) :
    getBits (setBits byte shift status) shift = status := by
  rw [setBits_eq, getBits_eq, get_byte _ hshift, BitField.get_set_same rfl (code_lt status) _ (by omega) (by omega),
    ofCode_code]

theorem getBits_setBits_other (byte : UInt8) (status : XidStatus) (hshift : shift.toNat < 32)
    (hshift' : shift'.toNat + 2 ≤ 8)
    (hne : shift'.toNat + 2 ≤ shift.toNat ∨ shift.toNat + 2 ≤ shift'.toNat) :
    getBits (setBits byte shift status) shift' = getBits byte shift' := by
  rw [setBits_eq, getBits_eq, get_byte _ hshift',
    BitField.get_set_other rfl (code_lt status) _ hshift (by omega) (by omega) hne, getBits_eq]

/-- A transaction is found by its page, its byte and its place in the byte. -/
theorem eq_of_place (hpage : transactionIdToPage x = transactionIdToPage y)
    (hbyte : transactionIdToByte x = transactionIdToByte y) (hbit : x.toNat % 4 = y.toNat % 4) : x = y := by
  rw [transactionIdToPage, transactionIdToPage, clogXactsPerPage, clogXactsPerByte] at hpage
  rw [transactionIdToByte, transactionIdToByte, transactionIdToPgIndex, transactionIdToPgIndex,
    clogXactsPerPage, clogXactsPerByte] at hbyte
  apply UInt32.toNat_inj.mp
  omega

theorem getStatus_setStatusBit_same (pages : Pages) (xid : TransactionId) (status : XidStatus) :
    transactionIdGetStatus (transactionIdSetStatusBit pages (transactionIdToPage xid) xid status) xid = status := by
  have hshift := bshift_toNat xid
  rw [transactionIdGetStatus, transactionIdSetStatusBit, Function.update_self, Function.update_self]
  apply getBits_setBits_same
  omega

theorem getStatus_setStatusBit_other (pages : Pages) (status : XidStatus) (hne : y ≠ x) :
    transactionIdGetStatus (transactionIdSetStatusBit pages (transactionIdToPage x) x status) y =
      transactionIdGetStatus pages y := by
  have hx := bshift_toNat x
  have hy := bshift_toNat y
  rw [transactionIdGetStatus, transactionIdGetStatus, transactionIdSetStatusBit]
  by_cases hpage : transactionIdToPage y = transactionIdToPage x
  · rw [hpage, Function.update_self]
    by_cases hbyte : transactionIdToByte y = transactionIdToByte x
    · have hbit : y.toNat % 4 ≠ x.toNat % 4 := fun hbit => hne (eq_of_place hpage hbyte hbit)
      rw [hbyte, Function.update_self]
      apply getBits_setBits_other <;> omega
    · rw [Function.update_of_ne hbyte]
  · rw [Function.update_of_ne hpage]

end Clog
