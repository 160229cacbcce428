import Mathlib

/-!
# The LZ4 block format, byte by byte

A block is a row of sequences. Each sequence is a token, a literal run and,
except for the last one, a match that is copied one byte at a time from the
output written so far. Nothing here looks past the bytes the format names.
-/
namespace Lz4Block

open List Nat

/-- Extension bytes of a length field: 255 continues, any other byte ends it. -/
def extension : List UInt8 → Nat → Option (Nat × List UInt8)
  | [], _ => none
  | b :: rest, acc => if b = 255 then extension rest (acc + 255) else some (acc + b.toNat, rest)

/-- A four-bit length field, extended when all its bits are set. -/
def lengthField (nibble : Nat) (rest : List UInt8) : Option (Nat × List UInt8) :=
  if nibble = 15 then extension rest 15 else some (nibble, rest)

/-- Appends `n` bytes, each read `offset` bytes before the end it is written at. -/
def copyBytes (offset : Nat) : Nat → List UInt8 → List UInt8
  | 0, out => out
  | n + 1, out => copyBytes offset n (out ++ [out.getD (out.length - offset) 0])

/-- What one sequence of a block does. -/
inductive Sequence where
  | malformed
  | last (out : List UInt8)
  | more (rest out : List UInt8)
  deriving DecidableEq, Repr

/-- The match part: the length field of the low nibble plus four. -/
def matchPart (token : UInt8) (offset : Nat) (rest out : List UInt8) : Sequence :=
  match lengthField (token &&& 0x0F).toNat rest with
  | none => .malformed
  | some (len, rest) => .more rest (copyBytes offset (len + 4) out)

/-- The two offset bytes, which must point into the output written so far. -/
def offsetPart (token : UInt8) (out : List UInt8) : List UInt8 → Sequence
  | [] => .last out
  | [_] => .malformed
  | lo :: hi :: rest =>
    if lo.toNat + 256 * hi.toNat = 0 ∨ out.length < lo.toNat + 256 * hi.toNat then .malformed
    else matchPart token (lo.toNat + 256 * hi.toNat) rest out

/-- One sequence, from its token on. -/
def decodeSequence (out : List UInt8) : List UInt8 → Sequence
  | [] => .malformed
  | token :: rest =>
    match lengthField (token >>> 4).toNat rest with
    | none => .malformed
    | some (lit, rest) =>
      if rest.length < lit then .malformed
      else offsetPart token (out ++ rest.take lit) (rest.drop lit)

variable {input rest out out' : List UInt8} {token : UInt8} {offset op : Nat}

theorem extension_length (h : extension input acc = some (len, rest)) : rest.length < input.length := by
  induction input generalizing acc with
  | nil => simp [extension] at h
  | cons b input ih =>
    by_cases hb : b = 255
    · simp only [hb] at h
      have := ih h
      simp only [length_cons]
      omega
    · simp only [extension, hb, if_false, Option.some.injEq, Prod.mk.injEq] at h
      simp [h.2]

theorem lengthField_length (h : lengthField nibble input = some (len, rest)) : rest.length ≤ input.length := by
  by_cases hn : nibble = 15
  · simp only [hn] at h
    exact (extension_length h).le
  · simp only [lengthField, hn, if_false, Option.some.injEq, Prod.mk.injEq] at h
    simp [h.2]

theorem matchPart_more (h : matchPart token offset input out = .more rest out') : rest.length ≤ input.length := by
  simp only [matchPart] at h
  cases hl : lengthField (token &&& 0x0F).toNat input with
  | none => simp only [hl, reduceCtorEq] at h
  | some p =>
    simp only [hl, Sequence.more.injEq] at h
    have := lengthField_length hl
    rw [← h.1]
    exact this

theorem offsetPart_more (h : offsetPart token out input = .more rest out') : rest.length < input.length := by
  match input, h with
  | [], h => simp [offsetPart] at h
  | [_], h => simp [offsetPart] at h
  | lo :: hi :: tail, h =>
    simp only [offsetPart] at h
    split at h
    · simp at h
    · have := matchPart_more h
      simp only [length_cons]
      omega

theorem decodeSequence_more (h : decodeSequence out input = .more rest out') : rest.length < input.length := by
  cases input with
  | nil => simp [decodeSequence] at h
  | cons token input =>
    simp only [decodeSequence] at h
    cases hl : lengthField (token >>> 4).toNat input with
    | none => simp only [hl, reduceCtorEq] at h
    | some p =>
      have htail := lengthField_length hl
      simp only [hl] at h
      split at h
      · simp at h
      · have := offsetPart_more h
        simp only [length_drop, length_cons] at this ⊢
        omega

/-- Decodes the sequences of `input` behind the output written so far. -/
def decodeFrom (input out : List UInt8) : Option (List UInt8) :=
  match _h : decodeSequence out input with
  | .malformed => none
  | .last out => some out
  | .more rest out => decodeFrom rest out
termination_by input.length
decreasing_by exact decodeSequence_more _h

/-- The reference decoder of a whole block. -/
def decode (input : List UInt8) : Option (List UInt8) := decodeFrom input []

theorem decodeFrom_malformed (h : decodeSequence out input = .malformed) : decodeFrom input out = none := by
  rw [decodeFrom]; split <;> simp_all

theorem decodeFrom_last (h : decodeSequence out input = .last out') : decodeFrom input out = some out' := by
  rw [decodeFrom]; split <;> simp_all

theorem decodeFrom_more (h : decodeSequence out input = .more rest out') : decodeFrom input out = decodeFrom rest out' := by
  rw [decodeFrom]; split <;> simp_all

@[simp] theorem copyBytes_length (offset n : Nat) (out) : (copyBytes offset n out).length = out.length + n := by
  induction n generalizing out with
  | zero => rfl
  | succ n ih =>
    simp only [copyBytes, ih, length_append, length_cons, length_nil]
    omega

theorem matchPart_length (h : matchPart token offset input out = .more rest out') : out.length ≤ out'.length := by
  simp only [matchPart] at h
  split at h
  · simp at h
  · simp only [Sequence.more.injEq] at h
    rw [← h.2, copyBytes_length]
    omega

/-- A sequence that goes on has only added to the output. -/
theorem decodeSequence_out_length {out input rest out' : List UInt8}
    (h : decodeSequence out input = .more rest out' ∨ decodeSequence out input = .last out') :
    out.length ≤ out'.length := by
  cases input with
  | nil => simp [decodeSequence] at h
  | cons token input =>
    simp only [decodeSequence] at h
    cases hl : lengthField (token >>> 4).toNat input with
    | none => simp only [hl, reduceCtorEq, or_self] at h
    | some p =>
      obtain ⟨lit, tail⟩ := p
      simp only [hl] at h
      by_cases hlit : tail.length < lit
      · simp [hlit] at h
      · simp only [hlit, if_false] at h
        have hout : out.length ≤ (out ++ tail.take lit).length := by simp
        generalize tail.drop lit = tail' at h
        match tail', h with
        | [], h =>
          simp only [offsetPart, reduceCtorEq, Sequence.last.injEq, false_or] at h
          rw [← h]
          exact hout
        | [_], h => simp [offsetPart] at h
        | lo :: hi :: tail', h =>
          simp only [offsetPart] at h
          split at h
          · simp at h
          · rcases h with h | h
            · exact hout.trans (matchPart_length h)
            · simp only [matchPart] at h
              split at h <;> simp at h

/-- The decoder never takes back output it has written. -/
theorem decodeFrom_length (h : decodeFrom input out = some r) : out.length ≤ r.length := by
  induction hn : input.length using Nat.strong_induction_on generalizing input out with
  | _ n ih =>
    cases hs : decodeSequence out input with
    | malformed => rw [decodeFrom_malformed hs] at h; simp at h
    | last out' =>
      rw [decodeFrom_last hs] at h
      simp only [Option.some.injEq] at h
      rw [← h]
      exact @decodeSequence_out_length out input [] out' (.inr hs)
    | more rest =>
      rw [decodeFrom_more hs] at h
      have hlt := decodeSequence_more hs
      exact (decodeSequence_out_length (.inl hs)).trans (ih rest.length (by omega) h rfl)

/-- A literal-only block of fewer than fifteen bytes decodes to its bytes. -/
theorem decode_literals (token : UInt8) (h : (token >>> 4).toNat = data.length) (hlen : data.length < 15) :
    decode (token :: data) = some data := by
  refine decodeFrom_last ?_
  have hne : data.length ≠ 15 := by omega
  simp [decodeSequence, lengthField, h, hne, offsetPart]

theorem extension_run (q : Nat) (hr : r < 255) (rest) (acc : Nat) :
    extension (List.replicate q 255 ++ UInt8.ofNat r :: rest) acc = some (acc + q * 255 + r, rest) := by
  induction q generalizing acc with
  | zero =>
    have hne : UInt8.ofNat r ≠ 255 := by
      intro h
      have := congrArg UInt8.toNat h
      simp [mod_eq_of_lt (show r < 256 by omega)] at this
      omega
    simp [extension, hne, mod_eq_of_lt (show r < 256 by omega)]
  | succ q ih =>
    rw [replicate_succ, cons_append, extension, if_pos rfl, ih]
    congr 2
    omega

/-- A block of one literal run: what a compressor that finds no match emits. -/
def literalBlock (data : List UInt8) : List UInt8 :=
  if data.length < 15 then UInt8.ofNat (data.length * 16) :: data
  else 0xF0 :: (List.replicate ((data.length - 15) / 255) 255 ++ UInt8.ofNat ((data.length - 15) % 255) :: data)

theorem decode_literalBlock (data : List UInt8) : decode (literalBlock data) = some data := by
  by_cases h : data.length < 15
  · have htoken : (UInt8.ofNat (data.length * 16) >>> 4).toNat = data.length := by
      have : data.length * 16 < 256 := by omega
      simp [mod_eq_of_lt this, shiftRight_eq_div_pow]
    rw [literalBlock, if_pos h]
    exact decode_literals _ htoken h
  · rw [literalBlock, if_neg h]
    apply decodeFrom_last
    have hfield : lengthField ((0xF0 : UInt8) >>> 4).toNat (List.replicate ((data.length - 15) / 255) 255 ++
          UInt8.ofNat ((data.length - 15) % 255) :: data) = some (data.length, data) := by
      rw [show ((0xF0 : UInt8) >>> 4).toNat = 15 from rfl, lengthField, if_pos rfl,
        extension_run _ (mod_lt _ (by decide))]
      congr 2
      omega
    simp only [decodeSequence, hfield]
    simp [offsetPart]

/-- The value of every byte once `offset`-periodic copying has gone on from `op`. -/
def spread (mem : Nat → UInt8) (op offset : Nat) (k : Nat) : UInt8 :=
  if k < op - offset then mem k else mem (op - offset + (k - (op - offset)) % offset)

theorem spread_of_lt (hk : k < op) : spread mem op offset k = mem k := by
  by_cases h : k < op - offset
  · simp [spread, h]
  · have hmod : (k - (op - offset)) % offset = k - (op - offset) := mod_eq_of_lt (by omega)
    simp only [spread, h, if_false]
    congr 1
    omega

/-- Going back any multiple of the offset inside the copied region reads the same byte. -/
theorem spread_back (mem : Nat → UInt8) (m : Nat) (h : op - offset + m * offset ≤ k) :
    spread mem op offset (k - m * offset) = spread mem op offset k := by
  have h₁ : ¬ k - m * offset < op - offset := by omega
  have h₂ : ¬ k < op - offset := by omega
  simp only [spread, h₁, h₂, if_false]
  have hk : k - (op - offset) = k - m * offset - (op - offset) + m * offset := by omega
  rw [hk, add_mul_mod_self_right]

/-- Byte-by-byte copying produces the spread of the bytes it started from. -/
theorem copyBytes_getD (hpos : 0 < offset) (hop : offset ≤ op) (n : Nat) (out)
    (hout : op ≤ out.length) (hmem : ∀ i, i < out.length → out.getD i 0 = spread mem op offset i) :
    ∀ i, i < out.length + n → (copyBytes offset n out).getD i 0 = spread mem op offset i := by
  induction n generalizing out with
  | zero => exact hmem
  | succ n ih =>
    intro i hi
    refine ih _ ?_ ?_ i ?_
    · simp only [length_append]
      omega
    · intro j hj
      simp only [length_append, length_cons, length_nil] at hj
      rcases Nat.lt_or_ge j out.length with hlt | hge
      · rw [getD_append _ _ _ _ hlt]
        exact hmem j hlt
      · have hj' : j = out.length := by omega
        subst hj'
        rw [getD_append_right _ _ _ _ (le_rfl), Nat.sub_self, hmem _ (by omega)]
        have hback : op - offset + 1 * offset ≤ out.length := by omega
        have := spread_back mem 1 hback
        rwa [Nat.one_mul] at this
    · simp only [length_append, length_cons]
      omega

end Lz4Block
