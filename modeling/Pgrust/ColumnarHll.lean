import Pgrust.ColumnarSketch

/-!
# The per-column distinct-count sketch

Registers of a HyperLogLog sketch are maxima, so adding values one by one and
merging the sketches of two halves give the same registers. The hash of a byte
string is the standard library's default hasher and stays a parameter.
-/
namespace ColumnarHll

open ByteImage ColumnarFormat ColumnarSketch

def hllP : Nat := 14
def hllM : Nat := 2 ^ hllP

@[ext] structure Hll where
  regs : Fin hllM → UInt8

def Hll.empty : Hll := ⟨fun _ => 0⟩

def bucket (h : BitVec 64) : Fin hllM := ⟨(h >>> (64 - hllP)).toNat, by
  have := h.isLt
  simp only [BitVec.toNat_ushiftRight, Nat.shiftRight_eq_div_pow, hllP, hllM]
  omega⟩

/-- The rank of the low bits, saturating where they are all zero. -/
def rho (h : BitVec 64) : UInt8 := UInt8.ofNat (BitVec.clz ((h <<< hllP) ||| (1#64 <<< (hllP - 1)))).toNat + 1

def Hll.addHash (s : Hll) (h : BitVec 64) : Hll :=
  ⟨fun i => if i = bucket h ∧ s.regs i < rho h then rho h else s.regs i⟩

def Hll.addI64 (s : Hll) (v : I64) : Hll := s.addHash (mix64 v)

def Hll.addBytes (hashBytes : List UInt8 → BitVec 64) (s : Hll) (b : List UInt8) : Hll := s.addHash (hashBytes b)

def Hll.merge (s o : Hll) : Hll := ⟨fun i => if s.regs i < o.regs i then o.regs i else s.regs i⟩

/-- The non-zero registers with their indices, ascending. -/
def Hll.entries (s : Hll) : List (Fin hllM × UInt8) :=
  ((List.finRange hllM).filter (fun i => s.regs i ≠ 0)).map (fun i => (i, s.regs i))

def sparseEntry (e : Fin hllM × UInt8) : List UInt8 := putU16 e.1 ++ [e.2]

def Hll.toBlob (s : Hll) : List UInt8 :=
  if 4 + 3 * s.entries.length < hllM then
    [2, 14, 0, 0] ++ putU32 s.entries.length ++ (s.entries.map sparseEntry).flatten
  else [1, 14, 0, 0] ++ (List.finRange hllM).map s.regs

/-- One sparse entry: a bucket out of range refuses the whole blob. -/
def readEntry (s : Hll) (lane : List UInt8) : Option Hll :=
  if h : leNat (lane.take 2) < hllM then
    some ⟨Function.update s.regs ⟨leNat (lane.take 2), h⟩ (lane.getD 2 0)⟩
  else none

def Hll.fromBlob (b : List UInt8) : Option Hll :=
  if b.length < 4 ∨ b[1]? ≠ some 14 then none
  else if b[0]? = some 1 then
    if b.length ≠ 4 + hllM then none else some ⟨fun i => b.getD (4 + i) 0⟩
  else if b[0]? = some 2 then do
    let n ← getU32 b 4
    if b.length ≠ 8 + 3 * n then none
    else do
      let entries ← lanes 3 n (b.drop 8)
      entries.foldlM readEntry Hll.empty
  else none

/-- The sketch of one hash. -/
def Hll.single (h : BitVec 64) : Hll := ⟨fun i => if i = bucket h then rho h else 0⟩

theorem merge_assoc (a b c : Hll) : (a.merge b).merge c = a.merge (b.merge c) := by
  ext i
  simp only [Hll.merge, UInt8.lt_iff_toNat_lt]
  split_ifs <;> first | rfl | omega

theorem empty_merge (a : Hll) : Hll.empty.merge a = a := by
  ext i
  simp only [Hll.merge, Hll.empty, UInt8.lt_iff_toNat_lt]
  split_ifs with h
  · rfl
  · apply congrArg UInt8.toNat
    apply UInt8.toNat_inj.mp
    simp only [UInt8.toNat_zero] at h ⊢
    omega

theorem addHash_eq_merge (s : Hll) (h : BitVec 64) : s.addHash h = s.merge (Hll.single h) := by
  ext i
  simp only [Hll.addHash, Hll.merge, Hll.single]
  by_cases hi : i = bucket h <;> simp [hi]

end ColumnarHll
