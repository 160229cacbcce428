import Mathlib

/-!
# Byte images

Little-endian words, bounds-checked slices, and where the parts of a byte image
sit in it. A reader that follows offsets is justified by `Sits` facts about the
image a writer has concatenated.
-/
namespace ByteImage

open List Nat

/-- The `w` low bytes of `n`, least significant first. -/
def leBytes : Nat → Nat → List UInt8
  | 0, _ => []
  | w + 1, n => UInt8.ofNat n :: leBytes w (n / 256)

def leNat : List UInt8 → Nat
  | [] => 0
  | b :: rest => b.toNat + 256 * leNat rest

@[simp] theorem leBytes_length (w n : Nat) : (leBytes w n).length = w := by
  induction w generalizing n with
  | zero => rfl
  | succ w ih => simp [leBytes, ih]

theorem leNat_leBytes (w n : Nat) : leNat (leBytes w n) = n % 256 ^ w := by
  induction w generalizing n with
  | zero => simp [leBytes, leNat, mod_one]
  | succ w ih =>
    have hbyte : (UInt8.ofNat n).toNat = n % 256 := UInt8.toNat_ofNat'
    simp only [leBytes, leNat, ih, hbyte]
    rw [pow_succ', mod_mul]

theorem some_bind (a : α) (f : α → Option β) : (some a >>= f) = f a := rfl

variable {w off len i : Nat} {b m : List UInt8} {xs : List (List UInt8)}

theorem leNat_leBytes_of_lt (h : n < 256 ^ w) : leNat (leBytes w n) = n := by
  rw [leNat_leBytes, mod_eq_of_lt h]

theorem leNat_lt (b) : leNat b < 256 ^ b.length := by
  induction b with
  | nil => simp [leNat]
  | cons x =>
    have hx := x.toNat_lt
    rw [leNat, length_cons]
    omega

theorem leBytes_leNat (h : b.length = w) : leBytes w (leNat b) = b := by
  subst h
  induction b with
  | nil => rfl
  | cons x b ih =>
    have hx := x.toNat_lt
    have hdiv : (x.toNat + 256 * leNat b) / 256 = leNat b := by omega
    have hbyte : UInt8.ofNat (x.toNat + 256 * leNat b) = x := by
      apply UInt8.toNat_inj.mp
      rw [UInt8.toNat_ofNat']
      omega
    simp [leBytes, leNat, hdiv, ih]

/-- `b[off..off + len]`, or nothing where the range leaves the slice. -/
def slice (b : List UInt8) (off len : Nat) : Option (List UInt8) :=
  if off + len ≤ b.length then some ((b.drop off).take len) else none

theorem slice_length (h : slice b off len = some m) : m.length = len := by
  simp only [slice] at h
  split at h
  · cases h
    simp only [length_take, length_drop]
    omega
  · cases h

/-- The bytes `m` stand in `b` from `off` on. -/
def Sits (b : List UInt8) (off : Nat) (m : List UInt8) : Prop := ∃ pre post, b = pre ++ m ++ post ∧ pre.length = off

theorem Sits.slice (h : Sits b off m) : slice b off m.length = some m := by
  obtain ⟨pre, post, rfl, rfl⟩ := h
  simp [ByteImage.slice]

theorem Sits.slice_of_length (h : Sits b off m) (hlen : m.length = len) : ByteImage.slice b off len = some m := by
  rw [← hlen]
  exact h.slice

theorem Sits.length_le (h : Sits b off m) : off + m.length ≤ b.length := by
  obtain ⟨pre, post, rfl, rfl⟩ := h
  simp only [length_append]
  omega

/-- The rest of the image from a sitting part on starts with that part. -/
theorem Sits.drop (h : Sits b off m) : ∃ post, b.drop off = m ++ post := by
  obtain ⟨pre, post, rfl, rfl⟩ := h
  exact ⟨post, by simp⟩

theorem Sits.getD (h : Sits b off m) (hi : i < m.length) (d : UInt8) : b.getD (off + i) d = m.getD i d := by
  obtain ⟨pre, post, rfl, rfl⟩ := h
  rw [append_assoc, getD_append_right _ _ _ _ (Nat.le_add_right _ _), Nat.add_sub_cancel_left,
    getD_append _ _ _ _ hi]

theorem sits_self (m) : Sits m 0 m := ⟨[], [], by simp, rfl⟩

theorem sits_middle (pre m post : List UInt8) : Sits (pre ++ m ++ post) pre.length m := ⟨pre, post, rfl, rfl⟩

theorem Sits.left {b m₁ m₂ : List UInt8} {off : Nat} (h : Sits b off (m₁ ++ m₂)) : Sits b off m₁ := by
  obtain ⟨pre, post, rfl, rfl⟩ := h
  exact ⟨pre, m₂ ++ post, by simp, rfl⟩

theorem Sits.right (h : Sits b off (m₁ ++ m₂)) : Sits b (off + m₁.length) m₂ := by
  obtain ⟨pre, post, rfl, rfl⟩ := h
  exact ⟨pre ++ m₁, post, by simp, by simp⟩

/-- Parts of a sitting part sit in the whole image. -/
theorem Sits.trans (h : Sits b off m) (hx : Sits m o x) : Sits b (off + o) x := by
  obtain ⟨pre, post, rfl, rfl⟩ := h
  obtain ⟨pre', post', rfl, rfl⟩ := hx
  exact ⟨pre ++ pre', post' ++ post, by simp, by simp⟩

theorem Sits.append_right (h : Sits b off m) (c : List UInt8) : Sits (b ++ c) off m := by
  obtain ⟨pre, post, rfl, rfl⟩ := h
  exact ⟨pre, post ++ c, by simp, rfl⟩

/-- The offset of entry `i` in the concatenation of entries. -/
def entryOff (xs : List (List UInt8)) (i : Nat) : Nat := ((xs.take i).map List.length).sum

theorem sits_flatten {xs : List (List UInt8)} {i : Nat} (h : i < xs.length) :
    Sits xs.flatten (entryOff xs i) (xs.get ⟨i, h⟩) := by
  refine ⟨(xs.take i).flatten, (xs.drop (i + 1)).flatten, ?_, ?_⟩
  · have hsplit : xs = xs.take i ++ xs.get ⟨i, h⟩ :: xs.drop (i + 1) := by
      rw [get_eq_getElem, ← drop_eq_getElem_cons h, take_append_drop]
    have hflat := congrArg List.flatten hsplit
    rw [flatten_append, flatten_cons, ← append_assoc] at hflat
    exact hflat
  · rw [length_flatten, entryOff]

section

variable (hw : ∀ x ∈ xs, x.length = w)
include hw

theorem entryOff_of_width (hi : i ≤ xs.length) : entryOff xs i = i * w := by
  have hmap : (xs.take i).map List.length = List.replicate i w := by
    rw [eq_replicate_iff]
    refine ⟨by simp [hi], fun n hn => ?_⟩
    obtain ⟨x, hx, rfl⟩ := mem_map.mp hn
    exact hw x (mem_of_mem_take hx)
  rw [entryOff, hmap, sum_replicate, smul_eq_mul]

theorem flatten_length_of_width : xs.flatten.length = xs.length * w := by
  have h := entryOff_of_width hw (le_rfl)
  rwa [entryOff, take_length, ← length_flatten] at h

/-- An entry of a table of fixed-width entries. -/
theorem sits_table (h : i < xs.length) : Sits xs.flatten (i * w) (xs.get ⟨i, h⟩) := by
  rw [← entryOff_of_width hw h.le]
  exact sits_flatten h

theorem sits_table_of_get? (h : xs[i]? = some x) : Sits xs.flatten (i * w) x := by
  obtain ⟨hi, rfl⟩ := List.getElem?_eq_some_iff.mp h
  exact sits_table hw hi

end

/-- The first `n` lanes of `w` bytes, or nothing where the bytes run out. -/
def lanes (w : Nat) : Nat → List UInt8 → Option (List (List UInt8))
  | 0, _ => some []
  | n + 1, b =>
    if b.length < w then none
    else (lanes w n (b.drop w)).map (fun rest => b.take w :: rest)

theorem lanes_flatten (xs) (post : List UInt8) (hw : ∀ x ∈ xs, x.length = w) :
    lanes w xs.length (xs.flatten ++ post) = some xs := by
  induction xs with
  | nil => rfl
  | cons x xs ih =>
    have hx : x.length = w := hw x (by simp)
    have hlen : ¬ ((x :: xs).flatten ++ post).length < w := by
      simp only [flatten_cons, length_append]
      omega
    simp only [length_cons, lanes, hlen]
    have hdrop : ((x :: xs).flatten ++ post).drop w = xs.flatten ++ post := by
      rw [flatten_cons, append_assoc, ← hx, drop_left]
    have htake : ((x :: xs).flatten ++ post).take w = x := by
      rw [flatten_cons, append_assoc, ← hx, take_left]
    rw [hdrop, htake, ih (forall_mem_cons.mp hw).2]
    rfl

section

variable {f : α → List UInt8} (hf : ∀ a, (f a).length = w)
include hf

/-- A table of one entry of fixed width for each element. -/
theorem width_map (l : List α) : ∀ x ∈ l.map f, x.length = w := forall_mem_map.mpr fun a _ => hf a

theorem flatten_map_length (l : List α) : (l.map f).flatten.length = l.length * w := by
  rw [flatten_length_of_width (width_map hf l), length_map]

theorem lanes_map (l : List α) : lanes w l.length (l.map f).flatten = some (l.map f) := by
  have h := lanes_flatten _ [] (width_map hf l)
  rwa [append_nil, length_map] at h

theorem sits_map {l : List α} (h : l[i]? = some a) : Sits (l.map f).flatten (i * w) (f a) :=
  sits_table_of_get? (width_map hf l) (by rw [getElem?_map, h, Option.map_some])

end

/-- Lanes that use the bytes up are a cut of them. -/
theorem lanes_eq (hlen : b.length = n * w) (h : lanes w n b = some xs) :
    xs.length = n ∧ b = xs.flatten ∧ ∀ x ∈ xs, x.length = w := by
  induction n generalizing b xs with
  | zero =>
    cases h
    simp only [Nat.zero_mul, length_eq_zero_iff] at hlen
    simp [hlen]
  | succ n ih =>
    rw [succ_mul] at hlen
    have hw : ¬ b.length < w := by omega
    simp only [lanes, hw, if_false, Option.map_eq_some_iff] at h
    obtain ⟨rest, hrest, rfl⟩ := h
    obtain ⟨hn, hb, hx⟩ := ih (by rw [length_drop]; omega) hrest
    refine ⟨by rw [length_cons, hn], ?_, ?_⟩
    · rw [flatten_cons, ← hb, take_append_drop]
    · intro x hmem
      rcases mem_cons.mp hmem with rfl | hmem
      · rw [length_take]
        omega
      · exact hx x hmem

/-- Zero bytes up to the next multiple of `m`. -/
def padTo (m : Nat) (b : List UInt8) : List UInt8 := b ++ List.replicate ((m - b.length % m) % m) 0

/-- `n` rounded up to a multiple of `m`. -/
def alignTo (m n : Nat) : Nat := (n + (m - 1)) / m * m

theorem alignTo_eq {m : Nat} (hm : 0 < m) (n : Nat) : alignTo m n = n + (m - n % m) % m := by
  have hdiv := div_add_mod n m
  have hlt := mod_lt n hm
  generalize hq : n / m = q at hdiv
  generalize hr : n % m = r at hdiv hlt ⊢
  rcases Nat.eq_zero_or_pos r with h0 | hpos
  · subst h0
    have hsum : n + (m - 1) = m - 1 + m * q := by omega
    rw [alignTo, hsum, add_mul_div_left _ _ hm, div_eq_of_lt (by omega), Nat.sub_zero,
      mod_self, Nat.zero_add, Nat.mul_comm]
    omega
  · have hsum : n + (m - 1) = r - 1 + m * (q + 1) := by rw [Nat.mul_add]; omega
    rw [alignTo, hsum, add_mul_div_left _ _ hm, div_eq_of_lt (by omega),
      mod_eq_of_lt (by omega), Nat.mul_comm, Nat.mul_add]
    omega

@[simp] theorem padTo_length {m : Nat} (hm : 0 < m) (b) : (padTo m b).length = alignTo m b.length := by
  rw [padTo, length_append, length_replicate, alignTo_eq hm]

theorem alignTo_dvd (m n : Nat) : m ∣ alignTo m n := ⟨(n + (m - 1)) / m, by rw [alignTo, Nat.mul_comm]⟩

theorem le_alignTo {m : Nat} (hm : 0 < m) (n : Nat) : n ≤ alignTo m n := by
  rw [alignTo_eq hm]
  omega

theorem alignTo_lt {m : Nat} (hm : 0 < m) (n : Nat) : alignTo m n < n + m := by
  have := mod_lt (m - n % m) hm
  rw [alignTo_eq hm]
  omega

/-- An aligned start does not disturb the rounding. -/
theorem alignTo_add {m : Nat} (hm : 0 < m) {a : Nat} (ha : m ∣ a) (n : Nat) :
    alignTo m (a + n) = a + alignTo m n := by
  obtain ⟨q, rfl⟩ := ha
  have hsum : m * q + n + (m - 1) = n + (m - 1) + m * q := by omega
  rw [alignTo, alignTo, hsum, add_mul_div_left _ _ hm, Nat.add_mul, Nat.mul_comm q m]
  omega

end ByteImage
