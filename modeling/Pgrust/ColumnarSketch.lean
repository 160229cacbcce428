import Pgrust.ColumnarFormat

/-!
# Bloom filters and distinct-value sketches

The per-granule bloom filter of integer chunks and the HyperLogLog registers of
a column, as the writer keeps them.
-/
namespace ColumnarSketch

open ByteImage ColumnarFormat

/-- The splitmix64 finalizer. -/
def mix64 (x : BitVec 64) : BitVec 64 :=
  let x := (x ^^^ (x >>> 30)) * 0xbf58476d1ce4e5b9#64
  let x := (x ^^^ (x >>> 27)) * 0x94d049bb133111eb#64
  x ^^^ (x >>> 31)

def bloomBytes : Nat := 16384
def bloomK : Nat := 8
def bloomBits : Nat := bloomBytes * 8

/-- The two hashes of the double-hashing scheme. -/
def hashes (v : I64) : BitVec 64 × BitVec 64 :=
  let h := mix64 v
  (h, (h >>> 32) ||| 1)

def bitMask (bit : Nat) : UInt8 := 1 <<< UInt8.ofNat (bit % 8)

def setBit (buf : List UInt8) (bit : Nat) : List UInt8 := buf.modify (bit / 8) (fun b => b ||| bitMask bit)

/-- The bits a value is stored under: `k` probes from `x` in steps of `h2`. -/
def probes (h2 : BitVec 64) : Nat → BitVec 64 → List Nat
  | 0, _ => []
  | k + 1, x => x.toNat % bloomBits :: probes h2 k (x + h2)

def bloomInsert (buf : List UInt8) (v : I64) : List UInt8 :=
  (probes (hashes v).2 bloomK (hashes v).1).foldl setBit buf

@[simp] theorem setBit_length (buf : List UInt8) (bit : Nat) : (setBit buf bit).length = buf.length := by
  simp [setBit]

theorem foldl_setBit_length (bits : List Nat) (buf : List UInt8) : (bits.foldl setBit buf).length = buf.length := by
  induction bits generalizing buf with
  | nil => rfl
  | cons bit bits ih => rw [List.foldl_cons, ih, setBit_length]

@[simp] theorem bloomInsert_length (buf : List UInt8) (v : I64) :
    (bloomInsert buf v).length = buf.length := foldl_setBit_length _ _

/-- The filter of a list of values. -/
def bloomOf (vals : List I64) : List UInt8 := vals.foldl bloomInsert (List.replicate bloomBytes 0)

theorem foldl_bloomInsert_length (vals : List I64) (buf : List UInt8) :
    (vals.foldl bloomInsert buf).length = buf.length := by
  induction vals generalizing buf with
  | nil => rfl
  | cons v vals ih => rw [List.foldl_cons, ih, bloomInsert_length]

@[simp] theorem bloomOf_length (vals : List I64) : (bloomOf vals).length = bloomBytes := by
  rw [bloomOf, foldl_bloomInsert_length, List.length_replicate]

end ColumnarSketch
