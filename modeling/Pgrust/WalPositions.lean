import Mathlib.Data.Nat.Bitwise
import Mathlib.Order.Monotone.Basic

/-!
WAL positions. A byte position counts usable bytes only; a record pointer also counts the headers
of pages and segments. The conversions of `transam_xlog` between the two, and the order facts that
reservation and waiting rest on.
-/

namespace WalPositions

open Nat

def xlogBlcksz : Nat := 8192

def sizeOfXLogShortPHD : Nat := 24

def sizeOfXLogLongPHD : Nat := 40

def usableBytesInPage : Nat := xlogBlcksz - sizeOfXLogShortPHD

/-- A size that `IsValidWalSegSize` accepts: a power of two from 1 MB to 1 GB. -/
structure WalSegSize where
  log2 : Nat
  low : 20 ≤ log2
  high : log2 ≤ 30

namespace WalSegSize

variable (seg : WalSegSize)

def size : Nat := 2 ^ seg.log2

def pages : Nat := seg.size / xlogBlcksz

def usableBytesInSegment : Nat := seg.pages * usableBytesInPage - (sizeOfXLogLongPHD - sizeOfXLogShortPHD)

def xLogSegmentOffset (ptr : Nat) : Nat := ptr &&& (seg.size - 1)

def xlByteToSeg (ptr : Nat) : Nat := ptr / seg.size

def xLogSegNoOffsetToRecPtr (segno offset : Nat) : Nat := segno * seg.size + offset

/-- The offset in its segment of the usable byte `left` of a segment. -/
def recOffset (left : Nat) : Nat :=
  if left < xlogBlcksz - sizeOfXLogLongPHD then left + sizeOfXLogLongPHD
  else
    let left := left - (xlogBlcksz - sizeOfXLogLongPHD)
    xlogBlcksz + left / usableBytesInPage * xlogBlcksz + left % usableBytesInPage + sizeOfXLogShortPHD

/-- The same for the end of a record, which stands before a page header rather than behind it. -/
def endOffset (left : Nat) : Nat :=
  if left < xlogBlcksz - sizeOfXLogLongPHD then
    if left = 0 then 0 else left + sizeOfXLogLongPHD
  else
    let left := left - (xlogBlcksz - sizeOfXLogLongPHD)
    xlogBlcksz + left / usableBytesInPage * xlogBlcksz + left % usableBytesInPage +
      if left % usableBytesInPage ≠ 0 then sizeOfXLogShortPHD else 0

def xLogBytePosToRecPtr (bytepos : Nat) : Nat :=
  seg.xLogSegNoOffsetToRecPtr (bytepos / seg.usableBytesInSegment) (recOffset (bytepos % seg.usableBytesInSegment))

def xLogBytePosToEndRecPtr (bytepos : Nat) : Nat :=
  seg.xLogSegNoOffsetToRecPtr (bytepos / seg.usableBytesInSegment) (endOffset (bytepos % seg.usableBytesInSegment))

def xLogRecPtrToBytePos (ptr : Nat) : Nat :=
  let fullsegs := seg.xlByteToSeg ptr
  let fullpages := seg.xLogSegmentOffset ptr / xlogBlcksz
  let offset := ptr % xlogBlcksz
  if fullpages = 0 then
    fullsegs * seg.usableBytesInSegment + if 0 < offset then offset - sizeOfXLogLongPHD else 0
  else
    fullsegs * seg.usableBytesInSegment + (xlogBlcksz - sizeOfXLogLongPHD) +
      (fullpages - 1) * usableBytesInPage + if 0 < offset then offset - sizeOfXLogShortPHD else 0

/-- `INSERT_FREESPACE`. -/
def insertFreespace (endptr : Nat) : Nat := if endptr % xlogBlcksz = 0 then 0 else xlogBlcksz - endptr % xlogBlcksz

/-- The size of the header of the page that starts at `ptr`. -/
def pageHeaderSize (ptr : Nat) : Nat :=
  if seg.xLogSegmentOffset ptr = 0 then sizeOfXLogLongPHD else sizeOfXLogShortPHD

theorem size_eq_pages : seg.size = seg.pages * 8192 := by
  have hpow : seg.size = 2 ^ (seg.log2 - 13) * 8192 := by
    have hlow := seg.low
    have h8192 : (8192 : Nat) = 2 ^ 13 := rfl
    rw [size, h8192, ← Nat.pow_add, Nat.sub_add_cancel (by omega)]
  rw [pages, hpow, xlogBlcksz, Nat.mul_div_cancel _ (by decide)]

theorem pages_pos : 1 < seg.pages := by
  have hsize := seg.size_eq_pages
  have hlarge : 2 ^ 20 ≤ seg.size := Nat.pow_le_pow_right (by decide) seg.low
  omega

theorem usable_eq : seg.usableBytesInSegment = seg.pages * 8168 - 16 := rfl

theorem xLogSegmentOffset_eq (ptr : Nat) : seg.xLogSegmentOffset ptr = ptr % seg.size :=
  and_two_pow_sub_one_eq_mod ptr seg.log2

theorem usable_pos : 0 < seg.usableBytesInSegment := by
  have hpages := seg.pages_pos
  rw [usable_eq]
  omega

theorem first_eq : xlogBlcksz - sizeOfXLogLongPHD = 8152 := rfl

theorem usablePage_eq : usableBytesInPage = 8168 := rfl

theorem recOffset_eq (left : Nat) : recOffset left = if left < 8152 then left + 40
      else 8192 + (left - 8152) / 8168 * 8192 + (left - 8152) % 8168 + 24 := by
  rfl

theorem endOffset_eq (left : Nat) : endOffset left = if left < 8152 then if left = 0 then 0 else left + 40
      else 8192 + (left - 8152) / 8168 * 8192 + (left - 8152) % 8168 +
        if (left - 8152) % 8168 ≠ 0 then 24 else 0 := by
  rfl

/-- The usable bytes of a segment stay inside it. -/
theorem recOffset_lt (h : left < seg.usableBytesInSegment) : recOffset left < seg.size := by
  rw [usable_eq] at h
  rw [recOffset_eq, size_eq_pages]
  split_ifs <;> omega

theorem endOffset_le (left : Nat) : endOffset left ≤ recOffset left := by
  rw [recOffset_eq, endOffset_eq]
  split_ifs <;> omega

/-- A byte in front of an end position lies before it. -/
theorem recOffset_lt_endOffset (h : a < b) : recOffset a < endOffset b := by
  rw [recOffset_eq, endOffset_eq]
  split_ifs <;> omega

variable {o : Nat}

/-- Byte positions are ordered by segment, then by their place in it. -/
theorem segment_order (h : x < y) : x / seg.usableBytesInSegment < y / seg.usableBytesInSegment ∨
      x / seg.usableBytesInSegment = y / seg.usableBytesInSegment ∧
        x % seg.usableBytesInSegment < y % seg.usableBytesInSegment := by
  have hle : x / seg.usableBytesInSegment ≤ y / seg.usableBytesInSegment := Nat.div_le_div_right h.le
  have hx := div_add_mod x seg.usableBytesInSegment
  have hy := div_add_mod y seg.usableBytesInSegment
  rcases Nat.lt_or_eq_of_le hle with hlt | heq
  · exact .inl hlt
  · rw [heq] at hx
    omega

/-- Pointers are ordered by segment, then by offset. -/
theorem ptr_lt (ho : o < seg.size) (h : q < q' ∨ q = q' ∧ o < o') :
    seg.xLogSegNoOffsetToRecPtr q o < seg.xLogSegNoOffsetToRecPtr q' o' := by
  rw [xLogSegNoOffsetToRecPtr, xLogSegNoOffsetToRecPtr]
  rcases h with hq | ⟨rfl, hlt⟩
  · have hstep : (q + 1) * seg.size ≤ q' * seg.size := Nat.mul_le_mul_right _ hq
    rw [succ_mul] at hstep
    omega
  · omega

theorem mod_usable_lt (x : Nat) : x % seg.usableBytesInSegment < seg.usableBytesInSegment :=
  mod_lt _ seg.usable_pos

theorem endRecPtr_le_recPtr (x : Nat) : seg.xLogBytePosToEndRecPtr x ≤ seg.xLogBytePosToRecPtr x :=
  Nat.add_le_add_left (endOffset_le _) _

/-- A record ends behind its start. -/
theorem recPtr_lt_endRecPtr (h : x < y) : seg.xLogBytePosToRecPtr x < seg.xLogBytePosToEndRecPtr y := by
  apply seg.ptr_lt (seg.recOffset_lt (seg.mod_usable_lt x))
  exact (seg.segment_order h).imp_right (And.imp_right recOffset_lt_endOffset)

theorem endRecPtr_mono (h : x ≤ y) : seg.xLogBytePosToEndRecPtr x ≤ seg.xLogBytePosToEndRecPtr y := by
  rcases Nat.lt_or_eq_of_le h with hlt | rfl
  · exact ((seg.endRecPtr_le_recPtr x).trans_lt (seg.recPtr_lt_endRecPtr hlt)).le
  · exact le_rfl

/-- The page and the place in it of an address in a segment. -/
theorem segment_mod (q o : Nat) : seg.xLogSegNoOffsetToRecPtr q o % 8192 = o % 8192 := by
  rw [xLogSegNoOffsetToRecPtr, size_eq_pages, ← Nat.mul_assoc, mul_add_mod_self_right]

theorem segmentOffset_ptr (ho : o < seg.size) : seg.xLogSegmentOffset (seg.xLogSegNoOffsetToRecPtr q o) = o := by
  rw [xLogSegmentOffset_eq, xLogSegNoOffsetToRecPtr, mul_add_mod_self_right, mod_eq_of_lt ho]

theorem segment_ptr (ho : o < seg.size) : seg.xlByteToSeg (seg.xLogSegNoOffsetToRecPtr q o) = q := by
  have hpos : 0 < seg.size := (Nat.zero_le o).trans_lt ho
  rw [xlByteToSeg, xLogSegNoOffsetToRecPtr, Nat.mul_comm, mul_add_div hpos, div_eq_of_lt ho, Nat.add_zero]

/-- Between the end of a record and the start of the next there is at most a page header. -/
theorem header_between (hlow : seg.xLogBytePosToEndRecPtr x ≤ a) (hhigh : a < seg.xLogBytePosToRecPtr x) :
    a % xlogBlcksz < seg.pageHeaderSize (a - a % xlogBlcksz) := by
  have hlt := seg.recOffset_lt (seg.mod_usable_lt x)
  rw [xLogBytePosToRecPtr, xLogSegNoOffsetToRecPtr] at hhigh
  rw [xLogBytePosToEndRecPtr, xLogSegNoOffsetToRecPtr] at hlow
  generalize x % seg.usableBytesInSegment = left at hlow hhigh hlt
  generalize x / seg.usableBytesInSegment = q at hlow hhigh
  obtain ⟨o, rfl⟩ := Nat.exists_eq_add_of_le ((Nat.le_add_right _ _).trans hlow)
  have ho : endOffset left ≤ o ∧ o < recOffset left := by omega
  have hmod : (q * seg.size + o) % xlogBlcksz = o % xlogBlcksz := seg.segment_mod q o
  have hsub : q * seg.size + o - o % xlogBlcksz = seg.xLogSegNoOffsetToRecPtr q (o - o % xlogBlcksz) := by
    have := mod_le o xlogBlcksz
    rw [xLogSegNoOffsetToRecPtr]
    omega
  rw [hmod, hsub, pageHeaderSize, segmentOffset_ptr _ (by omega)]
  obtain ⟨hend, hrec⟩ := ho
  rw [endOffset_eq] at hend
  rw [recOffset_eq] at hrec
  rw [xlogBlcksz, sizeOfXLogLongPHD, sizeOfXLogShortPHD]
  split_ifs at hend hrec ⊢ <;> omega

/-- The usable bytes of a segment in front of an offset in it. -/
def usableBefore (o : Nat) : Nat :=
  if o / 8192 = 0 then if 0 < o % 8192 then o % 8192 - 40 else 0
  else 8152 + (o / 8192 - 1) * 8168 + if 0 < o % 8192 then o % 8192 - 24 else 0

theorem bytePos_ptr (ho : o < seg.size) :
    seg.xLogRecPtrToBytePos (seg.xLogSegNoOffsetToRecPtr q o) = q * seg.usableBytesInSegment + usableBefore o := by
  have hmod : seg.xLogSegNoOffsetToRecPtr q o % xlogBlcksz = o % 8192 := seg.segment_mod q o
  rw [xLogRecPtrToBytePos, segment_ptr _ ho, segmentOffset_ptr _ ho, hmod, usableBefore, first_eq,
    usablePage_eq, sizeOfXLogShortPHD, xlogBlcksz]
  split_ifs
  · rfl
  · rfl
  · rw [Nat.add_assoc, Nat.add_assoc, Nat.add_assoc]
  · rw [Nat.add_assoc, Nat.add_assoc, Nat.add_assoc]

theorem usableBefore_endOffset (left : Nat) : usableBefore (endOffset left) = left := by
  rw [usableBefore, endOffset_eq]
  split_ifs <;> omega

theorem bytePos_endRecPtr (x : Nat) : seg.xLogRecPtrToBytePos (seg.xLogBytePosToEndRecPtr x) = x := by
  have hlt := (endOffset_le _).trans_lt (seg.recOffset_lt (seg.mod_usable_lt x))
  rw [xLogBytePosToEndRecPtr, bytePos_ptr _ hlt, usableBefore_endOffset, div_add_mod']

theorem bytePos_recPtr (x : Nat) : seg.xLogRecPtrToBytePos (seg.xLogBytePosToRecPtr x) = x ∧
    seg.xLogRecPtrToBytePos (seg.xLogBytePosToEndRecPtr x) = x := by
  have hleft : ∀ left, usableBefore (recOffset left) = left := by
    intro left
    rw [usableBefore, recOffset_eq]
    split_ifs <;> omega
  refine ⟨?_, seg.bytePos_endRecPtr x⟩
  rw [xLogBytePosToRecPtr, bytePos_ptr _ (seg.recOffset_lt (seg.mod_usable_lt x)), hleft, div_add_mod']

/-- The first byte of a segment stands behind its long header, the end before it at its start. -/
theorem endRecPtr_segment (q : Nat) : seg.xLogBytePosToEndRecPtr (q * seg.usableBytesInSegment) = q * seg.size := by
  rw [xLogBytePosToEndRecPtr, Nat.mul_div_cancel _ seg.usable_pos, mul_mod_left]
  rfl

theorem bytePos_segment (q : Nat) : seg.xLogRecPtrToBytePos (q * seg.size) = q * seg.usableBytesInSegment := by
  rw [← seg.endRecPtr_segment q, bytePos_endRecPtr]

end WalSegSize

end WalPositions
