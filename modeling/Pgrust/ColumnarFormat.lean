import Pgrust.ByteImage

/-!
# On-disk framing of column-store parts

The constants of the format, the column classes, and the chunk header with its
reader. A Rust panic (an index out of range, an unknown tag, an arithmetic
overflow: the release profile keeps overflow checks on) is `none`.
-/
namespace ColumnarFormat

open ByteImage

/-- An `i64`. -/
abbrev I64 := BitVec 64

def i64Max : I64 := BitVec.intMax 64
def i64Min : I64 := BitVec.intMin 64

def rgRows : Nat := 65536
def granuleRows : Nat := 8192
def granulesPerRg : Nat := rgRows / granuleRows
def windowRows : Nat := 256
def blockRows : Nat := 1024
def blocksPerGranule : Nat := granuleRows / blockRows

def cbHeaderLen : Nat := 64
def cbRgHeaderLen : Nat := 32
def cbChunkHeaderLen : Nat := 32
def cbGranuleEntryLen : Nat := 24
def cbBlockZmEntryLen : Nat := 16

def chunkFlagBlockZm : Nat := 1
def chunkFlagBloom : Nat := 2
def chunkFlagDictSorted : Nat := 4
def chunkFlagDictFramed : Nat := 8

inductive Encoding where
  | raw
  | for
  | const
  | dict
  | rawText
  | lz4Text
  | lz4Dict
  | deltaFor
  deriving DecidableEq, Repr

def Encoding.toU8 : Encoding → UInt8
  | .raw => 0
  | .for => 1
  | .const => 2
  | .dict => 3
  | .rawText => 4
  | .lz4Text => 5
  | .lz4Dict => 6
  | .deltaFor => 7

def Encoding.fromU8 (v : UInt8) : Option Encoding :=
  [Encoding.raw, .for, .const, .dict, .rawText, .lz4Text, .lz4Dict, .deltaFor][v.toNat]?

inductive Codec where
  | none
  | lz4
  | zstd
  deriving DecidableEq, Repr

def Codec.toU8 : Codec → UInt8
  | .none => 0
  | .lz4 => 1
  | .zstd => 2

def Codec.fromU8 (v : UInt8) : Option Codec := [Codec.none, .lz4, .zstd][v.toNat]?

/-- Logical column classes. -/
inductive ColType where
  | i16
  | i32
  | i64
  | date
  | timestamp
  | text
  deriving DecidableEq, Repr

def ColType.isText : ColType → Bool
  | .text => true
  | _ => false

@[simp] theorem Encoding.fromU8_toU8 (e : Encoding) : Encoding.fromU8 e.toU8 = some e := by
  cases e <;> rfl

@[simp] theorem Codec.fromU8_toU8 (c : Codec) : Codec.fromU8 c.toU8 = some c := by
  cases c <;> rfl

def align64 (off : Nat) : Nat := alignTo 64 off
def align4 (off : Nat) : Nat := alignTo 4 off

def getU16 (b : List UInt8) (off : Nat) : Option Nat := (slice b off 2).map leNat
def getU32 (b : List UInt8) (off : Nat) : Option Nat := (slice b off 4).map leNat
def getU64 (b : List UInt8) (off : Nat) : Option Nat := (slice b off 8).map leNat

/-- An `i64` from its eight little-endian bytes. -/
def i64OfLe (b : List UInt8) : I64 := BitVec.ofNat 64 (leNat b)

def getI64 (b : List UInt8) (off : Nat) : Option I64 := (slice b off 8).map i64OfLe

def putU16 (v : Nat) : List UInt8 := leBytes 2 v
def putU32 (v : Nat) : List UInt8 := leBytes 4 v
def putU64 (v : Nat) : List UInt8 := leBytes 8 v
def putI64 (v : I64) : List UInt8 := leBytes 8 v.toNat

@[simp] theorem putU16_length (v : Nat) : (putU16 v).length = 2 := leBytes_length 2 v
@[simp] theorem putU32_length (v : Nat) : (putU32 v).length = 4 := leBytes_length 4 v
@[simp] theorem putU64_length (v : Nat) : (putU64 v).length = 8 := leBytes_length 8 v
@[simp] theorem putI64_length (v : I64) : (putI64 v).length = 8 := leBytes_length 8 _

theorem i64OfLe_putI64 (v : I64) : i64OfLe (putI64 v) = v := by
  rw [i64OfLe, putI64, leNat_leBytes_of_lt v.isLt, BitVec.ofNat_toNat, BitVec.setWidth_eq]

variable {b : List UInt8} {off v : Nat}

theorem getU16_of_sits (h : Sits b off (putU16 v)) (hv : v < 2 ^ 16) : getU16 b off = some v := by
  rw [getU16, h.slice_of_length (putU16_length v), Option.map_some, putU16, leNat_leBytes_of_lt (by omega)]

theorem getU32_of_sits (h : Sits b off (putU32 v)) (hv : v < 2 ^ 32) : getU32 b off = some v := by
  rw [getU32, h.slice_of_length (putU32_length v), Option.map_some, putU32, leNat_leBytes_of_lt (by omega)]

theorem getU64_of_sits (h : Sits b off (putU64 v)) (hv : v < 2 ^ 64) : getU64 b off = some v := by
  rw [getU64, h.slice_of_length (putU64_length v), Option.map_some, putU64, leNat_leBytes_of_lt (by omega)]

theorem getI64_of_sits {v : I64} (h : Sits b off (putI64 v)) : getI64 b off = some v := by
  rw [getI64, h.slice_of_length (putI64_length v), Option.map_some, i64OfLe_putI64]

structure ChunkHeader where
  encoding : Encoding
  width : UInt8
  flags : Nat
  ngranules : Nat
  /-- FOR base, CONST value or DICT cardinality. -/
  aux : I64
  payloadLen : Nat
  codec : Codec
  deriving DecidableEq, Repr

/-- The fields that are not tags fit their words. -/
structure ChunkHeader.Fits (h : ChunkHeader) : Prop where
  flags : h.flags < 2 ^ 16
  ngranules : h.ngranules < 2 ^ 32
  payloadLen : h.payloadLen < 2 ^ 64

def ChunkHeader.encode (h : ChunkHeader) : List UInt8 :=
  [h.encoding.toU8, h.width] ++ putU16 h.flags ++ putU32 h.ngranules ++ putI64 h.aux ++
    putU64 h.payloadLen ++ [h.codec.toU8] ++ List.replicate 7 0

def ChunkHeader.decode (b : List UInt8) : Option ChunkHeader := do
  let encoding ← Encoding.fromU8 (← b[0]?)
  let width ← b[1]?
  let flags ← getU16 b 2
  let ngranules ← getU32 b 4
  let aux ← getI64 b 8
  let payloadLen ← getU64 b 16
  let codec ← Codec.fromU8 (← b[24]?)
  some { encoding, width, flags, ngranules, aux, payloadLen, codec }

@[simp] theorem ChunkHeader.encode_length (h : ChunkHeader) : h.encode.length = cbChunkHeaderLen := by
  simp [ChunkHeader.encode, cbChunkHeaderLen]

theorem getElem?_of_sits {x : UInt8} (h : Sits b off [x]) : b[off]? = some x := by
  obtain ⟨pre, post, rfl, rfl⟩ := h
  simp

/-- A header is read back as it was written. -/
theorem ChunkHeader.decode_encode (h : ChunkHeader) (hf : h.Fits) : ChunkHeader.decode h.encode = some h := by
  have hall := sits_self h.encode
  rw [show h.encode = [h.encoding.toU8] ++ ([h.width] ++ (putU16 h.flags ++ (putU32 h.ngranules ++
    (putI64 h.aux ++ (putU64 h.payloadLen ++ ([h.codec.toU8] ++ List.replicate 7 0)))))) by
      simp [ChunkHeader.encode]] at hall ⊢
  have h₁ := hall.right
  have h₂ := h₁.right
  have h₃ := h₂.right
  have h₄ := h₃.right
  have h₅ := h₄.right
  have h₆ := h₅.right
  simp only [List.length_cons, List.length_nil, putU16_length, putU32_length, putI64_length,
    putU64_length] at h₁ h₂ h₃ h₄ h₅ h₆
  simp only [ChunkHeader.decode, getElem?_of_sits hall.left, getElem?_of_sits h₁.left,
    getU16_of_sits h₂.left hf.flags, getU32_of_sits h₃.left hf.ngranules, getI64_of_sits h₄.left,
    getU64_of_sits h₅.left hf.payloadLen, getElem?_of_sits h₆.left, some_bind, Encoding.fromU8_toU8, Codec.fromU8_toU8]

/-- The codec the compressed frames of a chunk use: the untagged text encodings are LZ4. -/
def ChunkHeader.frameCodec (h : ChunkHeader) : Codec :=
  match h.codec, h.encoding with
  | .none, .lz4Text => .lz4
  | .none, .lz4Dict => .lz4
  | c, _ => c

structure GranuleEntry where
  payloadOff : Nat
  min : I64
  max : I64
  deriving DecidableEq, Repr

def GranuleEntry.encode (e : GranuleEntry) : List UInt8 := putU64 e.payloadOff ++ putI64 e.min ++ putI64 e.max

@[simp] theorem GranuleEntry.encode_length (e : GranuleEntry) : e.encode.length = cbGranuleEntryLen := by
  simp [GranuleEntry.encode, cbGranuleEntryLen]

end ColumnarFormat
