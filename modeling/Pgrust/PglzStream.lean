import Mathlib

/-!
# PGLZ streams and their decompression

A stream is a row of groups of at most eight items, each group behind a control byte
that tells copies from literals. `pglz_decompress` copies a match in spans that double
while the period repeats.
-/
namespace PglzStream

open List Nat Option

def pglzMaxMatch : Nat := 273

/-- A copy of `len` bytes from `off` bytes back, in non-overlapping spans. -/
def copySpans : Nat → Nat → Nat → List UInt8 → List UInt8
  | 0, off, len, out => out ++ (out.drop (out.length - off)).take len
  | fuel + 1, off, len, out =>
    if off < len then
      copySpans fuel (off + off) (len - off) (out ++ (out.drop (out.length - off)).take off)
    else out ++ (out.drop (out.length - off)).take len

/-- The extension byte of a long match. -/
def matchExtension (len : Nat) (src : List UInt8) : Option (Nat × List UInt8) :=
  if len = 18 then
    match src with
    | [] => none
    | e :: rest => some (len + e.toNat, rest)
  else some (len, src)

/-- A match from its two tag bytes on; the length is cut at the end of the buffer. -/
def decompressMatch (cap : Nat) (out : List UInt8) : List UInt8 → Option (List UInt8 × List UInt8)
  | t0 :: t1 :: src => do
    let (len, src) ← matchExtension ((t0.toNat &&& 0x0f) + 3) src
    let off := (t0.toNat &&& 0xf0) <<< 4 ||| t1.toNat
    if off = 0 ∨ out.length < off then none
    else
      let len := min len (cap - out.length)
      some (src, copySpans len off len out)
  | _ => none

def decompressItem (cap : Nat) (isMatch : Bool) (src out : List UInt8) : Option (List UInt8 × List UInt8) :=
  if isMatch then decompressMatch cap out src
  else
    match src with
    | [] => none
    | b :: rest => some (rest, out ++ [b])

/-- The items under one control byte, until they are eight or either side is used up. -/
def decompressGroup (cap : Nat) : Nat → Nat → List UInt8 → List UInt8 → Option (List UInt8 × List UInt8)
  | 0, _, src, out => some (src, out)
  | n + 1, ctrl, src, out =>
    if src = [] ∨ cap ≤ out.length then some (src, out)
    else do
      let (src, out) ← decompressItem cap (ctrl % 2 = 1) src out
      decompressGroup cap n (ctrl / 2) src out

/-- Group after group; each takes at least its control byte. -/
def decompressLoop (cap : Nat) : Nat → List UInt8 → List UInt8 → Option (List UInt8 × List UInt8)
  | 0, src, out => some (src, out)
  | _ + 1, [], out => some ([], out)
  | fuel + 1, ctrl :: src, out =>
    if cap ≤ out.length then some (ctrl :: src, out)
    else do
      let (src, out) ← decompressGroup cap 8 ctrl.toNat src out
      decompressLoop cap fuel src out

/-- `pglz_decompress` into a buffer of `cap` bytes; `none` is corrupt input. -/
def pglzDecompress (source : List UInt8) (cap : Nat) (checkComplete : Bool) : Option (List UInt8) := do
  let (src, out) ← decompressLoop cap source.length source []
  if checkComplete ∧ (out.length ≠ cap ∨ src ≠ []) then none else some out

/-- What a stream is made of. -/
inductive Item where
  | literal (b : UInt8)
  | copy (len off : Nat)
  deriving DecidableEq, Repr

namespace Item

def isCopy : Item → Bool
  | literal _ => false
  | copy _ _ => true

/-- How many bytes the item stands for. -/
def size : Item → Nat
  | literal _ => 1
  | copy len _ => len

def bytes : Item → List UInt8
  | literal b => [b]
  | copy len off =>
    if 17 < len then
      [UInt8.ofNat ((off &&& 0xf00) >>> 4 ||| 0x0f), UInt8.ofNat (off &&& 0xff), UInt8.ofNat (len - 18)]
    else [UInt8.ofNat ((off &&& 0xf00) >>> 4 ||| (len - 3)), UInt8.ofNat (off &&& 0xff)]

/-- The item stands for the bytes of `source` from `pos` on. -/
def Covers (source : List UInt8) (pos : Nat) : Item → Prop
  | literal b => source[pos]? = some b
  | copy len off => 3 ≤ len ∧ len ≤ pglzMaxMatch ∧ 0 < off ∧ off < 4096 ∧ off ≤ pos ∧
      pos + len ≤ source.length ∧ ∀ i, i < len → source[pos - off + i]? = source[pos + i]?

end Item

/-- The items stand for the bytes of `source` from `pos` on, one after the other. -/
def CoversAll (source : List UInt8) : Nat → List Item → Prop
  | _, [] => True
  | pos, it :: items => it.Covers source pos ∧ CoversAll source (pos + it.size) items

def sizes (items : List Item) : Nat := (items.map Item.size).sum

/-- The flags of a group, first item lowest. -/
def flagBits : List Item → Nat
  | [] => 0
  | it :: items => (if it.isCopy then 1 else 0) + 2 * flagBits items

def groupBytes (items : List Item) : List UInt8 := UInt8.ofNat (flagBits items) :: items.flatMap Item.bytes

@[simp] theorem sizes_nil : sizes [] = 0 := rfl

@[simp] theorem sizes_cons (it : Item) (items : List Item) : sizes (it :: items) = it.size + sizes items := rfl

@[simp] theorem sizes_append (xs ys : List Item) : sizes (xs ++ ys) = sizes xs + sizes ys := by
  simp [sizes]

theorem flagBits_lt (items : List Item) : flagBits items < 2 ^ items.length := by
  induction items with
  | nil => exact Nat.one_pos
  | cons =>
    rw [flagBits, length_cons]
    split_ifs <;> omega

theorem flagBits_append (xs ys : List Item) : flagBits (xs ++ ys) = flagBits xs + 2 ^ xs.length * flagBits ys := by
  induction xs with
  | nil => simp [flagBits]
  | cons it xs ih =>
    rw [cons_append, flagBits, ih, flagBits, length_cons]
    ring

variable {source : List UInt8} {pos n off : Nat}

theorem coversAll_append :
    CoversAll source pos (xs ++ ys) ↔ CoversAll source pos xs ∧ CoversAll source (pos + sizes xs) ys := by
  induction xs generalizing pos with
  | nil => simp [CoversAll]
  | cons it xs ih => simp [CoversAll, ih, and_assoc, Nat.add_assoc]

theorem Item.Covers.size_pos : ∀ {it : Item}, it.Covers source pos → 0 < it.size
  | .literal _, _ => Nat.one_pos
  | .copy _ _, h => Nat.lt_of_lt_of_le (by decide) h.1

theorem Item.Covers.le_length {it : Item} (h : it.Covers source pos) : pos + it.size ≤ source.length := by
  cases it with
  | literal => exact (List.getElem?_eq_some_iff.mp h).1
  | copy => exact h.2.2.2.2.2.1

section Copy

variable {source : List UInt8}

theorem take_add_eq (hm : ∀ i, i < k → m[i]? = source[n + i]?) (hlen : m.length = k) :
    source.take n ++ m = source.take (n + k) := by
  rw [take_add]
  congr 1
  apply ext_getElem?
  intro i
  rw [getElem?_take]
  by_cases hi : i < k
  · rw [if_pos hi, hm i hi, getElem?_drop]
  · rw [if_neg hi, getElem?_eq_none (by omega)]

/-- Bytes that repeat with period `off` are continued by copying the last `off` of them. -/
theorem take_copy (hk : k ≤ off) (hoff : off ≤ n) (hn : n + k ≤ source.length)
    (h : ∀ i, i < k → source[n - off + i]? = source[n + i]?) :
    source.take n ++ ((source.take n).drop ((source.take n).length - off)).take k = source.take (n + k) := by
  have hlen : (source.take n).length = n := by rw [length_take]; omega
  apply take_add_eq
  · intro i hi
    rw [getElem?_take, if_pos hi, hlen, getElem?_drop, getElem?_take, if_pos (by omega), h i hi]
  · rw [length_take, length_drop]
    omega

theorem copySpans_eq (hfuel : len ≤ fuel) (hpos : 0 < off) (hoff : off ≤ n) (hn : n + len ≤ source.length)
    (h : ∀ i, i < len → source[n - off + i]? = source[n + i]?) :
    copySpans fuel off len (source.take n) = source.take (n + len) := by
  induction fuel generalizing n off len with
  | zero => exact take_copy (by omega) hoff hn h
  | succ fuel ih =>
    rw [copySpans]
    split_ifs with hlt
    · rw [take_copy (Nat.le_refl off) hoff (by omega) (fun i hi => h i (by omega))]
      -- the doubled period reaches back to the same bytes
      have hdouble : ∀ i, i < len - off → source[n + off - (off + off) + i]? = source[n + off + i]? := by
        intro i hi
        have h₁ := h i (by omega)
        have h₂ := h (off + i) (by omega)
        have e₁ : n + off - (off + off) + i = n - off + i := by omega
        have e₂ : n - off + (off + i) = n + i := by omega
        rw [e₁, h₁, ← e₂, h₂, Nat.add_assoc]
      rw [ih (by omega) (by omega) (by omega) (by omega) hdouble]
      congr 1
      omega
    · exact take_copy (by omega) hoff hn h

end Copy

section Tags

theorem and_high_nibble (h : t < 256) : t &&& 0xf0 = t / 16 * 16 := by
  have hall : ∀ t < 256, t &&& 0xf0 = t / 16 * 16 := by decide +kernel
  exact hall t h

theorem and_low_nibble (t : Nat) : t &&& 0x0f = t % 16 := and_two_pow_sub_one_eq_mod t 4

theorem and_low_byte (t : Nat) : t &&& 0xff = t % 256 := and_two_pow_sub_one_eq_mod t 8

theorem mul_or {a b n : Nat} (h : b < 2 ^ n) : a * 2 ^ n ||| b = a * 2 ^ n + b := by
  rw [← shiftLeft_eq, shiftLeft_add_eq_or_of_lt h]

theorem tag_high (h : off < 4096) : (off &&& 0xf00) >>> 4 = off / 256 * 16 := by
  rw [shiftRight_and_distrib]
  exact (and_high_nibble (by omega)).trans (by omega)

/-- The tag bytes of a match give its length nibble and its offset back. -/
theorem tag_back {off k : Nat} (hoff : off < 4096) (hk : k < 16) :
    ((UInt8.ofNat ((off &&& 0xf00) >>> 4 ||| k)).toNat &&& 0x0f) = k ∧
      ((UInt8.ofNat ((off &&& 0xf00) >>> 4 ||| k)).toNat &&& 0xf0) <<< 4 |||
        (UInt8.ofNat (off &&& 0xff)).toNat = off := by
  have hbyte : (UInt8.ofNat ((off &&& 0xf00) >>> 4 ||| k)).toNat = off / 256 * 16 + k := by
    have hor : off / 256 * 16 ||| k = off / 256 * 16 + k := mul_or (n := 4) hk
    rw [tag_high hoff, hor, UInt8.toNat_ofNat', mod_eq_of_lt (by omega)]
  have hlow : (UInt8.ofNat (off &&& 0xff)).toNat = off % 256 := by
    rw [and_low_byte, UInt8.toNat_ofNat', mod_eq_of_lt (by omega)]
  have hshift : (off / 256 * 16 + k) / 16 * 16 * 2 ^ 4 = off / 256 * 256 := by omega
  have hor : off / 256 * 256 ||| off % 256 = off / 256 * 256 + off % 256 :=
    mul_or (n := 8) (mod_lt _ (by decide))
  rw [hbyte, hlow, and_low_nibble, and_high_nibble (by omega), shiftLeft_eq, hshift]
  omega

end Tags

section Decode

variable {source rest : List UInt8} {pos cap m : Nat} {items : List Item} {groups : List (List Item)}

theorem decompressItem_eq {it : Item} (h : it.Covers source pos) (hlt : pos < cap) (hcap : cap ≤ source.length) :
    decompressItem cap it.isCopy (it.bytes ++ rest) (source.take pos) =
      some (rest, source.take (min (pos + it.size) cap)) := by
  cases it with
  | literal b =>
    have hb : source[pos]? = some b := h
    simp only [decompressItem, Item.isCopy, Item.bytes, cons_append, nil_append,
      Bool.false_eq_true, if_false, Item.size]
    rw [Nat.min_eq_left hlt, take_add_one, hb, toList_some]
  | copy len off =>
    obtain ⟨hmin, hmax, hpos, hoff, hle, hlen, heq⟩ := h
    have htake : (source.take pos).length = pos := by rw [length_take]; omega
    have hbad : ¬ (off = 0 ∨ pos < off) := by omega
    have hcut : pos + min len (cap - pos) = min (pos + len) cap := by omega
    have hcopy := copySpans_eq (Nat.le_refl (min len (cap - pos))) hpos hle (by omega)
      (fun i hi => heq i (by omega))
    rw [hcut] at hcopy
    simp only [decompressItem, Item.isCopy, Item.bytes, if_true, Item.size]
    simp only [pglzMaxMatch] at hmax
    split_ifs with hlong
    · obtain ⟨hnibble, hback⟩ := @tag_back off 15 hoff (by decide)
      have hext : 18 + (UInt8.ofNat (len - 18)).toNat = len := by
        rw [UInt8.toNat_ofNat']
        omega
      simp only [cons_append, nil_append, decompressMatch, hnibble, hback, matchExtension, if_true, hext, bind_eq_bind, bind_some, htake, hbad, if_false,
        hcopy]
    · obtain ⟨hnibble, hback⟩ := @tag_back off (len - 3) hoff (by omega)
      have hshort : len - 3 + 3 = len := by omega
      have hne : ¬ len = 18 := by omega
      simp only [cons_append, nil_append, decompressMatch, hnibble, hback, matchExtension,
        hshort, hne, if_false, bind_eq_bind, bind_some, htake, hbad, hcopy]

theorem bytes_length_pos (it : Item) : 0 < it.bytes.length := by
  cases it with
  | literal => exact Nat.one_pos
  | copy =>
    rw [Item.bytes]
    split_ifs <;> exact succ_pos _

theorem bytes_length_le (it : Item) : it.bytes.length ≤ 3 := by
  cases it with
  | literal => simp [Item.bytes]
  | copy =>
    rw [Item.bytes]
    split_ifs <;> simp

/-- No item takes up more bytes than it stands for. -/
theorem Item.Covers.bytes_le {it : Item} (h : it.Covers source pos) : it.bytes.length ≤ it.size := by
  cases it with
  | literal => exact Nat.le_refl 1
  | copy =>
    have hmin := h.1
    rw [Item.bytes, Item.size]
    split_ifs <;> simp only [length_cons, length_nil] <;> omega

theorem CoversAll.sizes_le (h : CoversAll source pos items) :
    items.length ≤ sizes items ∧ (items.flatMap Item.bytes).length ≤ sizes items := by
  induction items generalizing pos with
  | nil => simp
  | cons it items ih =>
    obtain ⟨hcount, hbytes⟩ := ih h.2
    have hpos := h.1.size_pos
    have hle := h.1.bytes_le
    rw [flatMap_cons, length_append, length_cons, sizes_cons]
    omega

/-- With the buffer full, nothing more is read. -/
theorem decompressGroup_full (h : cap ≤ out.length) (n ctrl : Nat) (src : List UInt8) :
    decompressGroup cap n ctrl src out = some (src, out) := by
  cases n with
  | zero => rfl
  | succ => rw [decompressGroup, if_pos (.inr h)]

theorem decompressLoop_full (h : cap ≤ out.length) (fuel : Nat) (src : List UInt8) :
    decompressLoop cap fuel src out = some (src, out) := by
  cases fuel with
  | zero => rfl
  | succ =>
    cases src with
    | nil => rfl
    | cons => rw [decompressLoop, if_pos h]

theorem take_append_of_le {xs ys : List UInt8} (h : xs.length ≤ m) :
    (xs ++ ys).take m = xs ++ ys.take (m - xs.length) := by
  rw [take_append, take_of_length_le h]

/-- A group is decoded item by item until the buffer is full; a short one ends with the source. Of the
stream, two bytes more than are still to be written are enough. -/
theorem decompressGroup_eq {n : Nat} (h : CoversAll source pos items) (hpos : pos ≤ cap)
    (hcap : cap ≤ source.length) (hn : items.length ≤ n) (hrest : rest = [] ∨ items.length = n)
    (hm : (items.flatMap Item.bytes ++ rest).length ≤ m ∨ cap - pos + 2 ≤ m) :
    ∃ src, decompressGroup cap n (flagBits items) ((items.flatMap Item.bytes ++ rest).take m)
        (source.take pos) = some (src, source.take (min (pos + sizes items) cap)) ∧
      (pos + sizes items ≤ cap → src = rest.take (m - (items.flatMap Item.bytes).length)) := by
  induction items generalizing n m pos with
  | nil =>
    have hmin : min (pos + sizes []) cap = pos := Nat.min_eq_left hpos
    rw [hmin]
    refine ⟨rest.take m, ?_, fun _ => rfl⟩
    cases n with
    | zero => rfl
    | succ =>
      have hnil : rest = [] := hrest.resolve_right (by simp)
      simp [decompressGroup, hnil]
  | cons it items ih =>
    obtain ⟨hit, hitems⟩ := h
    have hsize := hit.size_pos
    have hlength : (source.take pos).length = pos := by rw [length_take]; omega
    rw [sizes_cons]
    obtain rfl | hfull := eq_or_ne pos cap
    · rw [decompressGroup_full hlength.ge, Nat.min_eq_right (by omega)]
      exact ⟨_, rfl, by omega⟩
    have hbytes := bytes_length_le it
    have hsome := bytes_length_pos it
    have hle := hit.bytes_le
    rw [flatMap_cons, append_assoc, length_append] at hm
    cases n with
    | zero => simp at hn
    | succ n =>
      have hne : ¬ it.bytes ++ (items.flatMap Item.bytes ++ rest).take (m - it.bytes.length) = [] := by
        simp [ne_nil_of_length_pos hsome]
      have hbit : decide (flagBits (it :: items) % 2 = 1) = it.isCopy := by
        rw [flagBits]
        cases it.isCopy <;> simp
      have hdiv : flagBits (it :: items) / 2 = flagBits items := by
        rw [flagBits]
        split_ifs <;> omega
      rw [flatMap_cons, append_assoc, take_append_of_le (by omega), decompressGroup,
        if_neg (not_or.mpr ⟨hne, by omega⟩), hbit, hdiv, decompressItem_eq hit (by omega) hcap]
      by_cases hover : pos + it.size ≤ cap
      · rw [Nat.min_eq_left hover, ← Nat.add_assoc, length_append, ← Nat.sub_sub]
        exact ih hitems hover (by simpa using hn) (by simpa using hrest) (by omega)
      · have hend : (source.take cap).length = cap := by rw [length_take]; omega
        rw [Nat.min_eq_right (by omega), Nat.min_eq_right (by omega)]
        exact ⟨_, decompressGroup_full hend.ge .., by omega⟩

/-- Groups of eight items and a last one of at most eight. -/
inductive Grouped : List (List Item) → Prop
  | nil : Grouped []
  | last {g : List Item} : g ≠ [] → g.length ≤ 8 → Grouped [g]
  | cons {g : List Item} {gs : List (List Item)} : g.length = 8 → Grouped gs → Grouped (g :: gs)

theorem flagBits_byte (h : g.length ≤ 8) : (UInt8.ofNat (flagBits g)).toNat = flagBits g := by
  have hlt : flagBits g < 2 ^ 8 := (flagBits_lt g).trans_le (Nat.pow_le_pow_right (by decide) h)
  rw [UInt8.toNat_ofNat', mod_eq_of_lt hlt]

/-- From any position on, the groups fill the buffer as far as their items reach, and with no more of the
stream than the bytes still to be written, a control byte for every eight of them, and two more. -/
def Slices (source : List UInt8) (cap : Nat) (groups : List (List Item)) : Prop :=
  ∀ pos fuel m, CoversAll source pos groups.flatten → pos ≤ cap →
    ((groups.flatMap groupBytes).take m).length ≤ fuel →
    ((groups.flatMap groupBytes).length ≤ m ∨ cap - pos + (cap - pos + 7) / 8 + 2 ≤ m) →
    ∃ src, decompressLoop cap fuel ((groups.flatMap groupBytes).take m) (source.take pos) =
        some (src, source.take (min (pos + sizes groups.flatten) cap)) ∧
      (pos + sizes groups.flatten ≤ cap → src = [])

theorem slices_nil (source) (cap : Nat) : Slices source cap [] := by
  intro pos fuel m _ hpos _ _
  have hmin : min (pos + sizes [].flatten) cap = pos := Nat.min_eq_left hpos
  rw [hmin, flatMap_nil, take_nil]
  refine ⟨[], ?_, fun _ => rfl⟩
  cases fuel <;> rfl

theorem slices_cons (hcap : cap ≤ source.length) (hne : 0 < g.length) (hlen : g.length ≤ 8)
    (hfull : groups = [] ∨ g.length = 8) (ih : Slices source cap groups) :
    Slices source cap (g :: groups) := by
  intro pos fuel m h hpos hfuel hm
  rw [flatten_cons, coversAll_append] at h
  obtain ⟨hcount, hbytes⟩ := h.1.sizes_le
  have hlength : (source.take pos).length = pos := by rw [length_take]; omega
  have hend : (source.take cap).length = cap := by rw [length_take]; omega
  rw [flatMap_cons, groupBytes, cons_append, length_cons, length_append] at hm
  obtain ⟨m, rfl⟩ : ∃ k, m = k + 1 := ⟨m - 1, by omega⟩
  rw [flatMap_cons, groupBytes, cons_append, take_succ_cons] at hfuel ⊢
  rw [flatten_cons, sizes_append, ← Nat.add_assoc]
  obtain rfl | hstop := eq_or_ne pos cap
  · rw [decompressLoop_full hlength.ge, Nat.min_eq_right (by omega)]
    exact ⟨_, rfl, by omega⟩
  cases fuel with
  | zero => cases hfuel
  | succ fuel =>
    have hrest : groups.flatMap groupBytes = [] ∨ g.length = 8 := hfull.imp_left (by rintro rfl; rfl)
    obtain ⟨src, hgroup, hsrc⟩ := decompressGroup_eq (m := m) h.1 hpos hcap hlen hrest
      (by rw [length_append]; omega)
    rw [decompressLoop, if_neg (by omega), flagBits_byte hlen, hgroup]
    simp only [bind_eq_bind, bind_some]
    by_cases hover : pos + sizes g ≤ cap
    · rw [Nat.min_eq_left hover, hsrc hover]
      apply ih _ _ _ h.2 hover
      · simp only [length_cons, length_take, length_append] at hfuel ⊢
        omega
      · cases hfull with
        | inl hnil =>
          rw [hnil]
          exact .inl (Nat.zero_le _)
        | inr => omega
    · rw [Nat.min_eq_right (by omega), Nat.min_eq_right (by omega), decompressLoop_full hend.ge]
      exact ⟨_, rfl, by omega⟩

theorem Grouped.slices (h : Grouped groups) (hcap : cap ≤ source.length) : Slices source cap groups := by
  induction h with
  | nil => exact slices_nil source cap
  | last hne hlen => exact slices_cons hcap (length_pos_of_ne_nil hne) hlen (.inl rfl) (slices_nil source cap)
  | cons hlen _ ih => exact slices_cons hcap (by omega) hlen.le (.inr hlen) ih

/-- The stream stands for all of `source`. -/
structure StreamOf (source comp : List UInt8) (groups : List (List Item)) : Prop where
  grouped : Grouped groups
  covers : CoversAll source 0 groups.flatten
  whole : sizes groups.flatten = source.length
  bytes : comp = groups.flatMap groupBytes

variable {comp : List UInt8}

/-- So it decompresses to it. -/
theorem StreamOf.decompress (h : StreamOf source comp groups) : pglzDecompress comp source.length true = some source := by
  obtain ⟨src, hloop, hsrc⟩ := h.grouped.slices (Nat.le_refl _) 0 comp.length comp.length h.covers (Nat.zero_le _)
    (by rw [← h.bytes, take_length]) (.inl (by rw [← h.bytes]))
  rw [Nat.zero_add, h.whole] at hsrc hloop
  rw [← h.bytes, take_zero, hsrc (Nat.le_refl _), take_length] at hloop
  rw [pglzDecompress, hloop]
  simp

/-- And a part of it to as much of `source` as is asked for. -/
theorem StreamOf.slice (h : StreamOf source comp groups) (hcap : cap ≤ source.length)
    (hm : comp.length ≤ m ∨ cap + (cap + 7) / 8 + 2 ≤ m) :
    pglzDecompress (comp.take m) cap false = some (source.take cap) := by
  obtain ⟨src, hloop, -⟩ := h.grouped.slices hcap 0 (comp.take m).length m h.covers (Nat.zero_le _)
    (by rw [← h.bytes]) (by rw [← h.bytes]; exact hm)
  rw [Nat.zero_add, h.whole, ← h.bytes, take_zero, Nat.min_eq_right hcap] at hloop
  rw [pglzDecompress, hloop]
  simp

end Decode

end PglzStream
