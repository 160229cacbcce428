import Pgrust.Lz4decCopy

/-!
# The padded decoder refines the reference decoder

Every round of the decoding loop is one sequence of the block format. The output
below the cursor is the reference output, whatever the wide copies have spilled
behind it.
-/
namespace Lz4dec

open List
open Lz4Block (spread extension lengthField copyBytes matchPart offsetPart decodeSequence decodeFrom copyBytes_length decodeFrom_last decodeFrom_more)

/-- The reference output `L` is what memory holds from the start of the buffer. -/
def Agrees (out : Mem) (L : List UInt8) : Prop := ∀ i, i < L.length → L.getD i 0 = out i

/-- The decoder stands at `c` with the reference output `L` written. -/
structure At (input : List UInt8) (rawLen : Nat) (c : Cursor) (L : List UInt8) : Prop where
  op_eq : c.op = L.length
  op_le : c.op ≤ rawLen
  ip_le : c.ip ≤ input.length
  agrees : Agrees c.out L

/-- Bytes at and behind `raw_len + OUT_PAD` are never written. -/
def Keeps (rawLen : Nat) (out out' : Mem) : Prop := ∀ k, rawLen + outPad ≤ k → out' k = out k

/-- No run through this sequence produces exactly `rawLen` bytes. -/
def Fails (rawLen : Nat) : Lz4Block.Sequence → Prop
  | .malformed => True
  | .last out => out.length ≠ rawLen
  | .more _ out => rawLen < out.length

/-- A result of the loop body against the reference sequence read at `ip`. -/
def Tracks (input : List UInt8) (rawLen ip : Nat) (start : Mem) (seq : Lz4Block.Sequence) : Run Next → Prop
  | .ok (.done out) => ∃ r, seq = .last r ∧ r.length = rawLen ∧ Agrees out r ∧ Keeps rawLen start out
  | .ok (.more c) =>
    ∃ L, seq = .more (input.drop c.ip) L ∧ At input rawLen c L ∧ ip < c.ip ∧ Keeps rawLen start c.out
  | .error (.err _ out) => Fails rawLen seq ∧ Keeps rawLen start out
  | .error .fault => False

variable {rawLen ip offset : Nat} {out out' : Mem} {input L rest : List UInt8} {token : UInt8}
  {c : Cursor}

theorem Keeps.trans {c : Mem} (hab : Keeps rawLen a b) (hbc : Keeps rawLen b c) :
    Keeps rawLen a c := fun k hk => (hbc k hk).trans (hab k hk)

theorem Keeps.refl (rawLen : Nat) (a : Mem) : Keeps rawLen a a := fun _ _ => rfl

theorem Spills.keeps (h : Spills stop a b) (hstop : stop ≤ rawLen) :
    Keeps rawLen a b := fun k hk => h k (by simp only [outPad] at hk; omega)

theorem Tracks.of_keeps (hab : Keeps rawLen a b) (h : Tracks input rawLen ip b seq r) :
    Tracks input rawLen ip a seq r := by
  match r, h with
  | .ok (.done out), ⟨r, hs, hl, ha, hk⟩ => exact ⟨r, hs, hl, ha, hab.trans hk⟩
  | .ok (.more c), ⟨L, hs, hat, hip, hk⟩ => exact ⟨L, hs, hat, hip, hab.trans hk⟩
  | .error (.err _ _), ⟨hf, hk⟩ => exact ⟨hf, hab.trans hk⟩

theorem fails_decodeFrom (hf : Fails rawLen (decodeSequence L input)) (h : decodeFrom input L = some r) :
    r.length ≠ rawLen := by
  cases hs : decodeSequence L input with
  | malformed => rw [Lz4Block.decodeFrom_malformed hs] at h; simp at h
  | last =>
    rw [decodeFrom_last hs, Option.some.injEq] at h
    rw [hs] at hf
    rw [← h]
    exact hf
  | more =>
    rw [decodeFrom_more hs] at h
    rw [hs] at hf
    have hout := Lz4Block.decodeFrom_length h
    simp only [Fails] at hf
    omega

theorem extension_le (h : extension rest acc = some (len, rest')) : acc ≤ len := by
  induction rest generalizing acc with
  | nil => simp [extension] at h
  | cons b rest ih =>
    by_cases hb : b = 255
    · simp only [hb] at h
      have := ih h
      omega
    · simp only [extension, hb, if_false, Option.some.injEq, Prod.mk.injEq] at h
      omega

/-- A length read by the decoder, `d` more than the one the format names. -/
def ReadsLength (out : Mem) (ip d : Nat) (field : Option (Nat × List UInt8)) (rest : List UInt8) :
    Run (Nat × Nat) → Prop
  | .ok (ip', len') => ∃ len, field = some (len, rest.drop (ip' - ip)) ∧ len' = len + d ∧ ip ≤ ip' ∧
      ip' ≤ ip + rest.length
  | .error (.err _ out') => out' = out ∧ ∀ len rest', field = some (len, rest') → usizeLimit ≤ len + d
  | .error .fault => False

theorem lengthExtension_reads (out : Mem) (rest) (ip acc d : Nat) :
    ReadsLength out ip d (extension rest acc) rest (lengthExtension out rest ip (acc + d)) := by
  induction rest generalizing ip acc with
  | nil => exact ⟨rfl, fun len rest' h => by simp [extension] at h⟩
  | cons b rest ih =>
    simp only [lengthExtension, checkedAdd]
    by_cases hfit : acc + d + b.toNat < usizeLimit
    · simp only [hfit]
      by_cases hb : b = 255
      · have hsum : acc + d + b.toNat = acc + 255 + d := by subst hb; simp; omega
        have hrec := ih (ip + 1) (acc + 255)
        simp only [hb, ne_eq, if_true]
        rw [hb] at hsum
        rw [hsum]
        generalize lengthExtension out rest (ip + 1) (acc + 255 + d) = r at hrec ⊢
        rcases r with ⟨_ | _⟩ | ⟨ip', len'⟩
        · exact hrec
        · exact hrec
        · obtain ⟨len, hf, hlen, hle, hge⟩ := hrec
          have hidx : ip' - ip = (ip' - (ip + 1)) + 1 := by omega
          refine ⟨len, ?_, hlen, by omega, by simp only [length_cons]; omega⟩
          rw [hidx]
          exact hf
      · simp only [ne_eq, hb, extension, if_false]
        refine ⟨acc + b.toNat, ?_, by omega, by omega, by simp⟩
        have hone : ip + 1 - ip = 1 := by omega
        rw [hone, drop_succ_cons, drop_zero]
    · simp only [hfit]
      refine ⟨rfl, fun len rest' h => ?_⟩
      by_cases hb : b = 255
      · simp only [extension, hb] at h
        have := extension_le h
        have hb' : b.toNat = 255 := by rw [hb]; rfl
        omega
      · simp only [extension, hb, if_false, Option.some.injEq, Prod.mk.injEq] at h
        omega

/-- Both length fields of a sequence, literal and match, are read by this rule. -/
theorem readLength_reads (out : Mem) (input) (ip nibble d full : Nat) (hfull : full = 15 + d) :
    ReadsLength out ip d (lengthField nibble (input.drop ip)) (input.drop ip)
      (readLength out input ip (nibble + d) full) := by
  obtain rfl | hn := eq_or_ne nibble 15
  · simp only [readLength, hfull]
    exact lengthExtension_reads out (input.drop ip) ip 15 d
  · have hne : ¬ nibble + d = full := by omega
    simp only [lengthField, readLength, hn, hne]
    exact ⟨nibble, by simp, rfl, Nat.le_refl _, by omega⟩

theorem wrappingSub_one_le {offset op : Nat} (hoff : offset < usizeLimit) (hop : op < usizeLimit - 1) :
    op ≤ wrappingSub offset 1 ↔ offset = 0 ∨ op < offset := by
  simp only [wrappingSub]
  rcases Nat.eq_zero_or_pos offset with h | h
  · subst h
    have hmod : (0 + usizeLimit - 1) % usizeLimit = usizeLimit - 1 := by decide
    omega
  · have hsum : offset + usizeLimit - 1 = offset - 1 + usizeLimit := by omega
    rw [hsum, Nat.add_mod_right, Nat.mod_eq_of_lt (by omega)]
    omega

theorem drop_two (h : ip + 2 ≤ input.length) :
    input.drop ip = input.getD ip 0 :: input.getD (ip + 1) 0 :: input.drop (ip + 2) := by
  rw [drop_eq_getElem_cons (by omega), drop_eq_getElem_cons (show ip + 1 < _ by omega),
    getD_eq_getElem _ _ (by omega), getD_eq_getElem _ _ (by omega)]

def offsetValue (input : List UInt8) (ip : Nat) : Nat :=
  (input.getD ip 0).toNat + 256 * (input.getD (ip + 1) 0).toNat

theorem offsetAt_ok (h : ip + 2 ≤ input.length) : offsetAt input ip = .ok (offsetValue input ip) := by
  simp [offsetAt, loadInput_ok h, offsetValue]

theorem offsetValue_lt (input) (ip : Nat) : offsetValue input ip < usizeLimit := by
  have h₁ := (input.getD ip 0).toNat_lt
  have h₂ := (input.getD (ip + 1) 0).toNat_lt
  simp only [offsetValue, usizeLimit]
  omega

theorem offsetPart_at (token) (h : ip + 2 ≤ input.length) (hop : op = L.length) (hfit : op < 2 ^ 63) :
    offsetPart token L (input.drop ip) = if op ≤ wrappingSub (offsetValue input ip) 1 then .malformed
      else matchPart token (offsetValue input ip) (input.drop (ip + 2)) L := by
  have hsub := @wrappingSub_one_le (offsetValue input ip) op (offsetValue_lt input ip)
    (by simp only [usizeLimit]; omega)
  rw [drop_two h]
  simp only [hsub]
  rw [hop]
  rfl

theorem matchPart_some (h : lengthField (token &&& 0x0F).toNat input = some (len, rest)) :
    matchPart token offset input L = .more rest (copyBytes offset (len + 4) L) := by
  simp only [matchPart, h]

/-- A match whose length leaves no room fails in the reference too. -/
theorem matchPart_fails (h : ∀ len rest, lengthField (token &&& 0x0F).toNat input = some (len, rest) →
      rawLen < L.length + (len + 4)) : Fails rawLen (matchPart token offset input L) := by
  cases hf : lengthField (token &&& 0x0F).toNat input with
  | none => simp only [matchPart, hf, Fails]
  | some p =>
    obtain ⟨len, rest⟩ := p
    rw [matchPart_some hf]
    simp only [Fails, copyBytes_length]
    exact h len rest hf

theorem agrees_copyBytes (hpos : 0 < offset) (hoff : offset ≤ L.length) (hag : Agrees out L)
    (hcopy : ∀ k, k < L.length + n → out' k = spread out L.length offset k) :
    Agrees out' (copyBytes offset n L) := by
  intro i hi
  rw [copyBytes_length] at hi
  rw [hcopy i hi]
  refine Lz4Block.copyBytes_getD hpos hoff n L (Nat.le_refl _) (fun j hj => ?_) i hi
  rw [Lz4Block.spread_of_lt hj]
  exact hag j hj

theorem agrees_append (hag : Agrees out L) (hlow : ∀ k, k < L.length → out' k = out k)
    (hnew : ∀ j, j < M.length → M.getD j 0 = out' (L.length + j)) : Agrees out' (L ++ M) := by
  intro i hi
  rcases Nat.lt_or_ge i L.length with hlt | hge
  · rw [getD_append _ _ _ _ hlt, hlow i hlt]
    exact hag i hlt
  · rw [length_append] at hi
    rw [getD_append_right _ _ _ _ hge, hnew (i - L.length) (by omega)]
    congr 1
    omega

section Rounds

variable {input : List UInt8} {limit rawLen : Nat}

theorem literal_agrees (hag : Agrees out L) (hlow : ∀ k, k < L.length → out' k = out k)
    (hcopy : ∀ k, L.length ≤ k → k < L.length + lit → out' k = input.getD (ip + (k - L.length)) 0) :
    Agrees out' (L ++ (input.drop ip).take lit) := by
  refine agrees_append hag hlow (fun j hj => ?_)
  rw [length_take] at hj
  rw [hcopy (L.length + j) (by omega) (by omega), getD_eq_getElem?_getD, getElem?_take_of_lt (by omega), getElem?_drop]
  congr 3
  omega

/-- The literal run leaves the literals of the format, or there is no room for them. -/
theorem literalRun_ok {L : List UInt8} {c : Cursor} {lit : Nat} (hlimit : rawLen + outPad ≤ limit)
    (hinput : input.length < 2 ^ 63) (hat : At input rawLen c L) :
    (∃ c', literalRun input limit rawLen c lit = .ok c' ∧ c.ip + lit ≤ input.length ∧
      c'.ip = c.ip + lit ∧ At input rawLen c' (L ++ (input.drop c.ip).take lit) ∧
      Keeps rawLen c.out c'.out) ∨
    (∃ e, literalRun input limit rawLen c lit = .error (.err e c.out) ∧
      (input.length < c.ip + lit ∨ rawLen < c.op + lit)) := by
  have hop := hat.op_eq
  have hip_le := hat.ip_le
  simp only [outPad] at hlimit
  obtain rfl | hzero := eq_or_ne lit 0
  · refine .inl ⟨c, by simp [literalRun], hip_le, rfl, ?_, Keeps.refl _ _⟩
    rw [take_zero, append_nil]
    exact hat
  · simp only [literalRun, ne_eq, hzero, not_false_eq_true, checkedAdd]
    by_cases hfit : c.ip + lit < usizeLimit
    · simp only [hfit, if_true]
      by_cases htrunc : input.length < c.ip + lit
      · exact .inr ⟨.trunc, by simp [htrunc], .inl htrunc⟩
      · simp only [htrunc, if_false]
        by_cases hroom : rawLen < c.op + lit
        · exact .inr ⟨.out, by simp [hroom], .inr hroom⟩
        · simp only [hroom]
          refine .inl ?_
          have hdone : ∀ out', (∀ k, k < c.op → out' k = c.out k) →
              (∀ k, c.op ≤ k → k < c.op + lit → out' k = input.getD (c.ip + (k - c.op)) 0) →
              At input rawLen ⟨c.ip + lit, c.op + lit, out'⟩ (L ++ (input.drop c.ip).take lit) := by
            intro out' hlow hcopy
            have hlen : c.op + lit = (L ++ (input.drop c.ip).take lit).length := by
              rw [length_append, length_take, length_drop]
              omega
            rw [hop] at hlow hcopy
            exact ⟨hlen, (by omega : c.op + lit ≤ rawLen), (by omega : c.ip + lit ≤ input.length),
              literal_agrees hat.agrees hlow hcopy⟩
          by_cases hwide : c.ip + lit + 31 ≤ input.length
          · simp only [hwide]
            obtain ⟨out', hrun, hlow, hcopy, hspill⟩ := @wideCopy_ok input limit (c.op + lit)
              (by omega) lit c.ip c.op c.out (by omega) (by omega) (by omega)
            rw [hrun]
            exact ⟨_, rfl, by omega, rfl, hdone out' hlow hcopy, hspill.keeps (by omega)⟩
          · simp only [hwide]
            rw [loadInput_ok (by omega), run_bind_ok, store_ok _ _ (by omega)]
            refine ⟨_, rfl, by omega, rfl, hdone _ (fun k hk => write_lt _ _ hk)
              (fun k h₁ h₂ => write_in _ _ h₁ h₂), fun k hk => ?_⟩
            change write c.out c.op lit (fun j => input.getD (c.ip + j) 0) k = c.out k
            exact write_ge _ _ (by omega)
    · simp only [hfit]
      refine .inr ⟨_, rfl, .inl ?_⟩
      simp only [usizeLimit] at hfit
      omega

theorem offsetPart_fails (token) (h : rawLen < L.length) : Fails rawLen (offsetPart token L rest) := by
  match rest with
  | [] => exact Nat.ne_of_gt h
  | [_] => trivial
  | lo :: hi :: rest =>
    simp only [offsetPart]
    split
    · trivial
    · exact matchPart_fails (fun len rest' _ => by omega)

/-- A sequence whose literal length has been read. -/
theorem decodeSequence_literals (h : lengthField (token >>> 4).toNat rest = some (lit, rest'))
    (hlit : lit ≤ rest'.length) :
    decodeSequence L (token :: rest) = offsetPart token (L ++ rest'.take lit) (rest'.drop lit) := by
  have hlt : ¬ rest'.length < lit := by omega
  simp only [decodeSequence, h, hlt, if_false]

section

variable (hraw : rawLen < 2 ^ 63) (hat : At input rawLen c L)

include hraw hat

/-- The shared tail of both paths: the offset is in range, or both decoders refuse it. -/
theorem offset_tracks {r : Nat → Run Next} (hroom : c.ip + 2 ≤ input.length)
    (hr : ∀ offset, 0 < offset → offset ≤ c.op →
      Tracks input rawLen ip₀ c.out (matchPart token offset (input.drop (c.ip + 2)) L) (r offset)) :
    Tracks input rawLen ip₀ c.out (offsetPart token L (input.drop c.ip)) (offsetAt input c.ip >>= fun offset =>
        if c.op ≤ wrappingSub offset 1 then .error (.err .offset c.out) else r offset) := by
  have hop_le := hat.op_le
  rw [offsetAt_ok hroom, run_bind_ok, offsetPart_at token hroom hat.op_eq (by omega)]
  by_cases hbad : c.op ≤ wrappingSub (offsetValue input c.ip) 1
  · simp only [hbad]
    exact ⟨trivial, Keeps.refl _ _⟩
  · simp only [hbad]
    rw [wrappingSub_one_le (offsetValue_lt input c.ip) (by simp only [usizeLimit]; omega)] at hbad
    exact hr _ (by omega) (by omega)

variable (hlimit : rawLen + outPad ≤ limit)

include hlimit

theorem matchTail_tracks (token) (hip : ip₀ < c.ip) (hpos : 0 < offset) (hoff : offset ≤ c.op) :
    Tracks input rawLen ip₀ c.out (matchPart token offset (input.drop c.ip) L)
      (matchTail input limit rawLen token offset c >>= fun c => .ok (.more c)) := by
  have hreads := readLength_reads c.out input c.ip (token &&& 0x0F).toNat 4 19 rfl
  have hop := hat.op_eq
  simp only [matchTail]
  generalize readLength c.out input c.ip ((token &&& 0x0F).toNat + 4) 19 = r at hreads ⊢
  match r, hreads with
  | .error (.err e out'), ⟨hout, hbig⟩ =>
    refine ⟨matchPart_fails (fun len rest hf => ?_), by rw [hout]; exact Keeps.refl _ _⟩
    have := hbig len rest hf
    simp only [usizeLimit] at this
    omega
  | .ok (ip', mlen), ⟨len, hf, hlen, hle, hge⟩ =>
    have hdrop : (input.drop c.ip).drop (ip' - c.ip) = input.drop ip' := by
      rw [drop_drop]
      congr 1
      omega
    rw [length_drop] at hge
    have hip_le := hat.ip_le
    have hfails : rawLen < c.op + mlen → Fails rawLen (matchPart token offset (input.drop c.ip) L) := by
      rw [matchPart_some hf]
      simp only [Fails, copyBytes_length]
      omega
    simp only [run_bind_ok, checkedAdd]
    by_cases hfit : c.op + mlen < usizeLimit
    · simp only [hfit, if_true]
      by_cases hroom : rawLen < c.op + mlen
      · simp only [hroom]
        exact ⟨hfails hroom, Keeps.refl _ _⟩
      · simp only [hroom]
        obtain ⟨out', hrun, hcopy, hspill⟩ := @copyMatch_ok limit c.op offset mlen c.out hpos hoff
          (by omega) (by simp only [outPad] at hlimit; omega)
        rw [hrun]
        have hop' : c.op + mlen ≤ rawLen := by omega
        have hip' : ip' ≤ input.length := by omega
        have hlt : ip₀ < ip' := by omega
        refine ⟨copyBytes offset (len + 4) L, ?_, ⟨?_, hop', hip', ?_⟩, hlt, hspill.keeps hop'⟩
        · rw [matchPart_some hf, hdrop]
        · simp only [copyBytes_length]
          omega
        · refine agrees_copyBytes hpos (by omega) hat.agrees (fun k hk => ?_)
          rw [← hop]
          exact hcopy k (by omega)
    · simp only [hfit]
      refine ⟨hfails ?_, Keeps.refl _ _⟩
      simp only [usizeLimit] at hfit
      omega

theorem fastMatch_tracks (token) (hip : ip₀ < c.ip) (hpos : 0 < offset) (hoff : offset ≤ c.op) :
    Tracks input rawLen ip₀ c.out (matchPart token offset (input.drop c.ip) L)
      (fastMatch input limit rawLen token offset c) := by
  have hop := hat.op_eq
  simp only [fastMatch]
  by_cases hshort : (token &&& 0x0F).toNat + 4 < 19
  · have hfield : lengthField (token &&& 0x0F).toNat (input.drop c.ip) =
        some ((token &&& 0x0F).toNat, input.drop c.ip) := by
      have hne : (token &&& 0x0F).toNat ≠ 15 := by omega
      simp only [lengthField, hne, if_false]
    simp only [hshort]
    rw [matchPart_some hfield]
    have hmin : 4 ≤ (token &&& 0x0F).toNat + 4 := by omega
    generalize (token &&& 0x0F).toNat + 4 = mlen at hshort hmin ⊢
    by_cases hroom : rawLen < c.op + mlen
    · simp only [hroom]
      refine ⟨?_, Keeps.refl _ _⟩
      simp only [Fails, copyBytes_length]
      omega
    · simp only [hroom]
      simp only [outPad] at hlimit
      -- both copies leave the spread of the bytes before `op`
      have hmore : ∀ out', (∀ k, k < c.op + mlen → out' k = spread c.out c.op offset k) → Keeps rawLen c.out out' →
          Tracks input rawLen ip₀ c.out (.more (input.drop c.ip) (copyBytes offset mlen L))
            (.ok (.more ⟨c.ip, c.op + mlen, out'⟩)) := by
        intro out' hcopy hkeeps
        refine ⟨_, rfl, ⟨?_, (show c.op + mlen ≤ rawLen by omega), hat.ip_le, ?_⟩, hip, hkeeps⟩
        · simp [hop]
        · refine agrees_copyBytes hpos (by omega) hat.agrees (fun k hk => ?_)
          rw [← hop]
          exact hcopy k (by omega)
      by_cases hfar : 16 ≤ offset
      · simp only [hfar]
        obtain ⟨out₁, out₂, h₁, h₂, hcopy, hkeep⟩ := @copyTwice_ok limit c.op offset c.out hfar hoff (by omega)
        rw [ptrSub_ok hoff, run_bind_ok, h₁, run_bind_ok, h₂]
        refine hmore out₂ (fun k hk => hcopy k (by omega)) (fun k hk => hkeep k ?_)
        simp only [outPad] at hk
        omega
      · simp only [hfar]
        obtain ⟨out', hrun, hcopy, hspill⟩ :=
          @copyMatch_ok limit c.op offset mlen c.out hpos hoff (by omega) (by omega)
        rw [hrun]
        exact hmore out' hcopy (hspill.keeps (by omega))
  · simp only [hshort]
    exact matchTail_tracks hraw hat hlimit token hip hpos hoff

theorem generalMatch_tracks (token) (hip : ip₀ < c.ip) :
    Tracks input rawLen ip₀ c.out (offsetPart token L (input.drop c.ip))
      (generalMatch input limit rawLen token c) := by
  have hip_le := hat.ip_le
  simp only [generalMatch]
  by_cases hend : c.ip = input.length
  · have hnil : input.drop c.ip = [] := drop_eq_nil_of_le (by omega)
    rw [← hend, hnil]
    by_cases hop : c.op = rawLen
    · simp only [hop]
      exact ⟨L, rfl, by rw [← hat.op_eq]; exact hop, hat.agrees, Keeps.refl _ _⟩
    · simp only [hop]
      refine ⟨?_, Keeps.refl _ _⟩
      simp only [offsetPart, Fails, ← hat.op_eq]
      exact hop
  · simp only [hend]
    by_cases hshort : input.length < c.ip + 2
    · simp only [hshort]
      have hone : input.drop c.ip = [input.get ⟨c.ip, by omega⟩] := by
        rw [drop_eq_getElem_cons (by omega), drop_eq_nil_of_le (by omega)]
        rfl
      rw [hone]
      exact ⟨trivial, Keeps.refl _ _⟩
    · simp only [hshort]
      refine offset_tracks hraw hat (by omega) (fun offset hpos hoff => ?_)
      have hat' : At input rawLen ⟨c.ip + 2, c.op, c.out⟩ L :=
        ⟨hat.op_eq, hat.op_le, (by omega : c.ip + 2 ≤ input.length), hat.agrees⟩
      exact matchTail_tracks hraw hat' hlimit token (by omega : ip₀ < c.ip + 2) hpos hoff

theorem fastSequence_tracks (hroom : c.ip + 19 ≤ input.length) (hlit : (token >>> 4).toNat < 15) :
    Tracks input rawLen c.ip c.out (decodeSequence L (token :: input.drop (c.ip + 1)))
      (fastSequence input limit rawLen c token) := by
  have hop := hat.op_eq
  have hop_le := hat.op_le
  have hpad := hlimit
  simp only [outPad] at hpad
  have hfield : lengthField (token >>> 4).toNat (input.drop (c.ip + 1)) =
      some ((token >>> 4).toNat, input.drop (c.ip + 1)) := by
    have hne : (token >>> 4).toNat ≠ 15 := by omega
    simp only [lengthField, hne, if_false]
  rw [decodeSequence_literals hfield (by rw [length_drop]; omega)]
  simp only [fastSequence]
  generalize (token >>> 4).toNat = lit at hlit ⊢
  rw [loadInput_ok (by omega), run_bind_ok, store_ok _ _ (by omega)]
  -- the blind 16-byte store commits the literals and spills the rest
  have hkeeps : Keeps rawLen c.out (write c.out c.op 16 fun j => input.getD (c.ip + 1 + j) 0) := by
    intro k hk
    simp only [outPad] at hk
    exact write_ge _ _ (by omega)
  have hagrees : Agrees (write c.out c.op 16 fun j => input.getD (c.ip + 1 + j) 0)
      (L ++ (input.drop (c.ip + 1)).take lit) := by
    refine literal_agrees hat.agrees (fun k hk => write_lt _ _ (by omega)) (fun k h₁ h₂ => ?_)
    rw [write_in _ _ (by omega) (by omega), hop]
  have hlen : c.op + lit = (L ++ (input.drop (c.ip + 1)).take lit).length := by
    rw [length_append, length_take, length_drop]
    omega
  generalize write c.out c.op 16 (fun j => input.getD (c.ip + 1 + j) 0) = out at hkeeps hagrees ⊢
  rw [drop_drop]
  by_cases hover : rawLen < c.op + lit
  · simp only [hover]
    exact ⟨offsetPart_fails token (by omega), hkeeps⟩
  · simp only [hover]
    have hip_le : c.ip + 1 + lit ≤ input.length := by omega
    have hat' : At input rawLen ⟨c.ip + 1 + lit, c.op + lit, out⟩ (L ++ (input.drop (c.ip + 1)).take lit) :=
      ⟨hlen, (by omega : c.op + lit ≤ rawLen), hip_le, hagrees⟩
    have htwo : c.ip + 1 + lit + 2 ≤ input.length := by omega
    refine Tracks.of_keeps hkeeps (offset_tracks hraw hat' htwo (fun offset hpos hoff => ?_))
    have hat'' : At input rawLen ⟨c.ip + 1 + lit + 2, c.op + lit, out⟩ (L ++ (input.drop (c.ip + 1)).take lit) :=
      ⟨hlen, hat'.op_le, htwo, hagrees⟩
    exact fastMatch_tracks hraw hat'' hlimit token (by omega : c.ip < c.ip + 1 + lit + 2) hpos hoff

theorem generalSequence_tracks (token) (hinput : input.length < 2 ^ 63) (hip : c.ip < input.length) :
    Tracks input rawLen c.ip c.out (decodeSequence L (token :: input.drop (c.ip + 1)))
      (generalSequence input limit rawLen c token) := by
  have hreads := readLength_reads c.out input (c.ip + 1) (token >>> 4).toNat 0 15 rfl
  have hop := hat.op_eq
  simp only [generalSequence]
  generalize readLength c.out input (c.ip + 1) (token >>> 4).toNat 15 = r at hreads ⊢
  match r, hreads with
  | .error (.err e out'), ⟨hout, hbig⟩ =>
    refine ⟨?_, by rw [hout]; exact Keeps.refl _ _⟩
    simp only [decodeSequence]
    cases hf : lengthField (token >>> 4).toNat (input.drop (c.ip + 1)) with
    | none => trivial
    | some p =>
      obtain ⟨lit, rest⟩ := p
      have hlong := hbig lit rest hf
      have hrest := Lz4Block.lengthField_length hf
      rw [length_drop] at hrest
      simp only [usizeLimit] at hlong
      have hlt : rest.length < lit := by omega
      simp only [hlt]
      trivial
  | .ok (ip, lit), ⟨len, hf, hlen, hle, hge⟩ =>
    have hdrop : (input.drop (c.ip + 1)).drop (ip - (c.ip + 1)) = input.drop ip := by
      rw [drop_drop]
      congr 1
      omega
    rw [length_drop] at hge
    rw [hdrop] at hf
    have hlit : lit = len := by omega
    subst hlit
    have hip_le : ip ≤ input.length := by omega
    have hat' : At input rawLen ⟨ip, c.op, c.out⟩ L := ⟨hop, hat.op_le, hip_le, hat.agrees⟩
    rw [run_bind_ok]
    rcases @literalRun_ok input limit rawLen L _ lit hlimit hinput hat' with
      ⟨c', hrun, hroom, hip', hat'', hkeeps⟩ | ⟨e, hrun, hover⟩
    · simp only at hrun hroom hip' hkeeps
      rw [hrun, decodeSequence_literals hf (by rw [length_drop]; omega), drop_drop, ← hip']
      exact Tracks.of_keeps hkeeps (generalMatch_tracks hraw hat'' hlimit token (by omega))
    · rw [hrun]
      refine ⟨?_, Keeps.refl _ _⟩
      simp only at hover
      by_cases hshort : (input.drop ip).length < lit
      · simp only [decodeSequence, hf, hshort]
        trivial
      · rw [decodeSequence_literals hf (by omega)]
        rw [length_drop] at hshort
        refine offsetPart_fails token ?_
        rw [length_append, length_take, length_drop]
        omega

theorem round_tracks (hinput : input.length < 2 ^ 63) :
    Tracks input rawLen c.ip c.out (decodeSequence L (input.drop c.ip)) (round input limit rawLen c) := by
  simp only [round]
  rcases Nat.lt_or_ge c.ip input.length with hlt | hge
  · rw [getElem?_eq_getElem hlt, drop_eq_getElem_cons hlt]
    generalize input[c.ip] = token
    by_cases hfast : c.ip + 19 ≤ input.length ∧ (token >>> 4).toNat < 15
    · simp only [hfast]
      exact fastSequence_tracks hraw hat hlimit hfast.1 hfast.2
    · simp only [hfast]
      exact generalSequence_tracks hraw hat hlimit token hinput hlt
  · rw [getElem?_eq_none hge, drop_eq_nil_of_le hge]
    exact ⟨trivial, Keeps.refl _ _⟩

end

/-- A whole run against what the reference decoder makes of the rest of the input. -/
def Decodes (rawLen : Nat) (start : Mem) (ref : Option (List UInt8)) : Run Mem → Prop
  | .ok out => ∃ r, ref = some r ∧ r.length = rawLen ∧ Agrees out r ∧ Keeps rawLen start out
  | .error (.err _ out) => (∀ r, ref = some r → r.length ≠ rawLen) ∧ Keeps rawLen start out
  | .error .fault => False

theorem decodeLoop_decodes (hlimit : rawLen + outPad ≤ limit) (hraw : rawLen < 2 ^ 63)
    (hinput : input.length < 2 ^ 63) (fuel : Nat) (c) (L)
    (hat : At input rawLen c L) (hfuel : input.length - c.ip < fuel) :
    Decodes rawLen c.out (decodeFrom (input.drop c.ip) L) (decodeLoop input limit rawLen fuel c) := by
  induction fuel generalizing c L with
  | zero => omega
  | succ fuel ih =>
    have hround := round_tracks hraw hat hlimit hinput
    simp only [decodeLoop]
    generalize round input limit rawLen c = r at hround ⊢
    match r, hround with
    | .ok (.done out), ⟨r, hs, hlen, hag, hkeeps⟩ => exact ⟨r, decodeFrom_last hs, hlen, hag, hkeeps⟩
    | .error (.err e out), ⟨hf, hkeeps⟩ => exact ⟨fun r hr => fails_decodeFrom hf hr, hkeeps⟩
    | .ok (.more c'), ⟨L', hs, hat', hip, hkeeps⟩ =>
      rw [decodeFrom_more hs, run_bind_ok]
      have hip' := hat'.ip_le
      have hrec := ih c' L' hat' (by omega)
      simp only
      generalize decodeLoop input limit rawLen fuel c' = r' at hrec ⊢
      match r', hrec with
      | .ok out, ⟨r, href, hlen, hag, hkeeps'⟩ => exact ⟨r, href, hlen, hag, hkeeps.trans hkeeps'⟩
      | .error (.err e out), ⟨hno, hkeeps'⟩ => exact ⟨hno, hkeeps.trans hkeeps'⟩

end Rounds

theorem decompressPadded_decodes (input : ByteSlice) (out : OutSlice) (rawLen : Nat)
    (hpad : rawLen + outPad ≤ out.len) :
    Decodes rawLen out.mem (Lz4Block.decode input.bytes) (decompressPadded input out rawLen) := by
  have hfits := out.fits
  have hsum : rawLen + outPad < usizeLimit := by simp only [usizeLimit]; omega
  have hroom : ¬ out.len < rawLen + outPad := by omega
  simp only [decompressPadded, checkedAdd, hsum, hroom, if_true]
  have hat : At input.bytes rawLen ⟨0, 0, out.mem⟩ [] :=
    ⟨rfl, Nat.zero_le _, Nat.zero_le _, fun i hi => absurd hi (Nat.not_lt_zero i)⟩
  exact decodeLoop_decodes hpad (by omega) input.fits _ _ [] hat (by simp)

/-- `decompress_padded` succeeds exactly on the blocks the reference decoder turns into
`rawLen` bytes, with those bytes in front of the output, and errs on all others. It
never faults and never touches a byte at or behind `raw_len + OUT_PAD`. -/
theorem decompressPadded_eq_reference (input : ByteSlice) (out : OutSlice) (rawLen : Nat)
    (hpad : rawLen + outPad ≤ out.len) :
    (∀ ref, Lz4Block.decode input.bytes = some ref → ref.length = rawLen →
      ∃ out', decompressPadded input out rawLen = .ok out' ∧ (List.range rawLen).map out' = ref ∧
        ∀ k, rawLen + outPad ≤ k → out' k = out.mem k) ∧
    ((¬ ∃ ref, Lz4Block.decode input.bytes = some ref ∧ ref.length = rawLen) →
      ∃ e out', decompressPadded input out rawLen = .error (.err e out') ∧
        ∀ k, rawLen + outPad ≤ k → out' k = out.mem k) := by
  have h := decompressPadded_decodes input out rawLen hpad
  generalize decompressPadded input out rawLen = r at h ⊢
  match r, h with
  | .ok out', ⟨r, href, hlen, hag, hkeeps⟩ =>
    refine ⟨fun ref hdec hreflen => ?_, fun hno => absurd ⟨r, href, hlen⟩ hno⟩
    have heq : r = ref := Option.some.inj (href.symm.trans hdec)
    subst heq
    refine ⟨out', rfl, ?_, hkeeps⟩
    refine ext_getElem (by simp [hlen]) (fun i h₁ h₂ => ?_)
    rw [getElem_map, getElem_range, ← hag i h₂, getD_eq_getElem _ _ h₂]
  | .error (.err e out'), ⟨hno, hkeeps⟩ =>
    exact ⟨fun ref hdec hreflen => absurd hreflen (hno ref hdec), fun _ => ⟨e, out', rfl, hkeeps⟩⟩

theorem decompressPadded_eq_reference_one_literal :
    ∃ out', decompressPadded ⟨[0x10, 0x41], by decide⟩ ⟨fun _ => 0, 65, by decide⟩ 1 = .ok out' ∧
      (List.range 1).map out' = [0x41] ∧ ∀ k, 1 + outPad ≤ k → out' k = 0 :=
  (decompressPadded_eq_reference ⟨[0x10, 0x41], by decide⟩ ⟨fun _ => 0, 65, by decide⟩ 1
    (by decide)).1 [0x41] (Lz4Block.decode_literals 0x10 (by decide) (by decide)) rfl


end Lz4dec
