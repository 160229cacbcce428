import Pgrust.Lz4decCopy
import Pgrust.PglzStream

/-!
# PGLZ decompression of arbitrary bytes

`pglz_decompress` with its pointers and its memory: an access outside a buffer, or a block copy whose
ranges overlap, ends the run in `fault`. On every input it agrees with a decoder that copies one byte at
a time.
-/
namespace PglzDecompress

open List Option
open Lz4dec (Mem Run load loadInput store ptrSub copyNonoverlapping write run_bind_ok ptrSub_ok
  loadInput_ok store_ok)
open Lz4Block (copyBytes spread spread_back spread_of_lt)
open PglzStream

/-- The pointers, as distances from the starts of their buffers, and the memory of `dest`. -/
structure Cursor where
  sp : Nat
  dp : Nat
  dest : Mem

/-- The copy of a match: the period doubles until it covers the rest. -/
def copyMatch (cap : Nat) : Nat → Nat → Nat → Nat → Mem → Run (Nat × Mem)
  | 0, _, _, _, _ => .error .fault
  | fuel + 1, off, len, dp, dest =>
    if off < len then do
      let src ← ptrSub dp off
      let dest ← copyNonoverlapping cap dest src dp off
      copyMatch cap fuel (off + off) (len - off) (dp + off) dest
    else do
      let src ← ptrSub dp off
      let dest ← copyNonoverlapping cap dest src dp len
      .ok (dp + len, dest)

def readExtension (source : List UInt8) (len sp : Nat) : Run (Option (Nat × Nat)) :=
  if len = 18 then
    if source.length ≤ sp then .ok none
    else do
      let e ← loadInput source sp 1
      .ok (some (len + (e 0).toNat, sp + 1))
  else .ok (some (len, sp))

def readMatch (source : List UInt8) (cap : Nat) (c : Cursor) : Run (Option Cursor) :=
  if source.length - c.sp < 2 then .ok none
  else do
    let t ← loadInput source c.sp 2
    match ← readExtension source (((t 0).toNat &&& 0x0f) + 3) (c.sp + 2) with
    | none => .ok none
    | some (len, sp) =>
      let off := ((t 0).toNat &&& 0xf0) <<< 4 ||| (t 1).toNat
      if off = 0 ∨ c.dp < off then .ok none
      else do
        let len := min len (cap - c.dp)
        let (dp, dest) ← copyMatch cap (len + 1) off len c.dp c.dest
        .ok (some ⟨sp, dp, dest⟩)

def readLiteral (source : List UInt8) (cap : Nat) (c : Cursor) : Run (Option Cursor) := do
  let b ← loadInput source c.sp 1
  let dest ← store cap c.dest c.dp 1 b
  .ok (some ⟨c.sp + 1, c.dp + 1, dest⟩)

def readGroup (source : List UInt8) (cap : Nat) : Nat → Nat → Cursor → Run (Option Cursor)
  | 0, _, c => .ok (some c)
  | n + 1, ctrl, c =>
    if c.sp < source.length ∧ c.dp < cap then do
      match ← if ctrl &&& 1 ≠ 0 then readMatch source cap c else readLiteral source cap c with
      | none => .ok none
      | some c => readGroup source cap n (ctrl >>> 1) c
    else .ok (some c)

def readGroups (source : List UInt8) (cap : Nat) : Nat → Cursor → Run (Option Cursor)
  | 0, _ => .error .fault
  | fuel + 1, c =>
    if c.sp < source.length ∧ c.dp < cap then do
      let ctrl ← loadInput source c.sp 1
      match ← readGroup source cap 8 (ctrl 0).toNat { c with sp := c.sp + 1 } with
      | none => .ok none
      | some c => readGroups source cap fuel c
    else .ok (some c)

/-- `pglz_decompress` into a buffer of `cap` bytes: how many were written, and the buffer. -/
def pglzDecompressInto (source : List UInt8) (dest : Mem) (cap : Nat) (checkComplete : Bool) :
    Run (Option (Nat × Mem)) := do
  match ← readGroups source cap (source.length + 1) ⟨0, 0, dest⟩ with
  | none => .ok none
  | some c => if checkComplete ∧ (c.dp ≠ cap ∨ c.sp ≠ source.length) then .ok none else .ok (some (c.dp, c.dest))

section Memory

variable {source out : List UInt8} {cap off len n : Nat} {dest : Mem}

/-- The buffer starts with these bytes. -/
def Shows (dest : Mem) (out : List UInt8) : Prop := ∀ i, i < out.length → dest i = out.getD i 0

/-- The pointers stand behind the bytes read and behind the bytes written. -/
structure At (source : List UInt8) (cap : Nat) (c : Cursor) (r : List UInt8 × List UInt8) : Prop where
  src : r.1 = source.drop c.sp
  inside : c.sp ≤ source.length
  dp : c.dp = r.2.length
  room : c.dp ≤ cap
  shows : Shows c.dest r.2

/-- A run without a fault that ends as the function on lists does. -/
def Tracks (source : List UInt8) (cap : Nat) (run : Run (Option Cursor)) : Option (List UInt8 × List UInt8) → Prop
  | none => run = .ok none
  | some r => ∃ c, run = .ok (some c) ∧ At source cap c r

theorem Tracks.bind {run : Run (Option Cursor)} {y : Option (List UInt8 × List UInt8)}
    {k : Cursor → Run (Option Cursor)} {f : List UInt8 × List UInt8 → Option (List UInt8 × List UInt8)}
    (h : Tracks source cap run y) (hk : ∀ c r, y = some r → At source cap c r → Tracks source cap (k c) (f r)) :
    Tracks source cap (do match ← run with
        | none => .ok none
        | some c => k c) (y.bind f) := by
  cases y with
  | none =>
    rw [show run = .ok none from h]
    rfl
  | some r =>
    obtain ⟨c, hrun, hat⟩ := h
    rw [hrun]
    exact hk c r rfl hat

theorem Shows.write (h : Shows dest out) {new : List UInt8} {chunk : Mem}
    (hnew : ∀ i, i < new.length → chunk i = new.getD i 0) :
    Shows (write dest out.length new.length chunk) (out ++ new) := by
  intro i hi
  rw [length_append] at hi
  by_cases hlt : i < out.length
  · rw [Lz4dec.write_lt _ _ hlt, h i hlt, getD_append _ _ _ _ hlt]
  · rw [Lz4dec.write_in _ _ (by omega) (by omega), hnew _ (by omega), getD_append_right _ _ _ _ (by omega)]

theorem Shows.copy (h : Shows dest out) (hn : n ≤ off) (hoff : off ≤ out.length) (hroom : out.length + n ≤ cap) :
    ∃ dest', copyNonoverlapping cap dest (out.length - off) out.length n = .ok dest' ∧
      Shows dest' (out ++ (out.drop (out.length - off)).take n) := by
  have hlen : ((out.drop (out.length - off)).take n).length = n := by
    rw [length_take, length_drop]
    omega
  rw [Lz4dec.copyNonoverlapping_eq _ (by omega), Lz4dec.load_ok _ (by omega), run_bind_ok, store_ok _ _ hroom]
  refine ⟨_, rfl, ?_⟩
  conv => arg 1; rw [← hlen]
  apply h.write
  intro i hi
  rw [h _ (by omega), getD_eq_getElem?_getD, getD_eq_getElem?_getD, getElem?_take, if_pos (by omega), getElem?_drop]

/-- The spans give what copying one byte at a time gives. -/
theorem copySpans_eq_copyBytes (hfuel : len ≤ fuel) (hpos : 0 < off) (hoff : off ≤ out.length) :
    copySpans fuel off len out = copyBytes off len out := by
  have hlen := Lz4Block.copyBytes_length off len out
  have hsome : ∀ i, i < out.length + len →
      (copyBytes off len out)[i]? = some (spread (fun i => out.getD i 0) out.length off i) := by
    intro i hi
    rw [← Lz4Block.copyBytes_getD hpos hoff len out (Nat.le_refl _) (fun i hi => by rw [spread_of_lt hi]) i hi,
      getD_eq_getElem _ _ (by omega), getElem?_eq_getElem]
  have hold : (copyBytes off len out).take out.length = out := by
    apply ext_getElem?
    intro i
    rw [getElem?_take]
    split_ifs with hi
    · rw [hsome i (by omega), spread_of_lt hi, getD_eq_getElem _ _ hi, getElem?_eq_getElem hi]
    · rw [getElem?_eq_none (Nat.le_of_not_lt hi)]
  have hspans := copySpans_eq hfuel hpos hoff hlen.ge (by
    intro i hi
    have hback := spread_back (fun i => out.getD i 0) 1 (show out.length - off + 1 * off ≤ out.length + i by omega)
    rw [hsome _ (by omega), hsome _ (by omega), ← hback]
    congr 2
    omega)
  rwa [hold, ← hlen, take_length] at hspans

theorem copyMatch_shows (fuel : Nat) (h : Shows dest out) (hfuel : len ≤ fuel) (hpos : 0 < off)
    (hoff : off ≤ out.length) (hroom : out.length + len ≤ cap) :
    ∃ dest', copyMatch cap (fuel + 1) off len out.length dest = .ok (out.length + len, dest') ∧
      Shows dest' (copySpans fuel off len out) := by
  induction fuel generalizing off len out dest with
  | zero =>
    obtain ⟨dest', hcopy, hshows⟩ := h.copy (show len ≤ off by omega) hoff hroom
    rw [copyMatch, if_neg (by omega), ptrSub_ok hoff, run_bind_ok, hcopy]
    exact ⟨dest', rfl, hshows⟩
  | succ fuel ih =>
    rw [copyMatch, copySpans, ptrSub_ok hoff, run_bind_ok, run_bind_ok]
    split_ifs with hlt
    · obtain ⟨dest', hcopy, hshows⟩ := h.copy (Nat.le_refl off) hoff (show _ ≤ cap by omega)
      have hlen : (out ++ (out.drop (out.length - off)).take off).length = out.length + off := by
        rw [length_append, length_take, length_drop]
        omega
      obtain ⟨dest'', hrest, hall⟩ := ih hshows (show len - off ≤ fuel by omega)
        (show 0 < off + off by omega) (by omega) (by omega)
      rw [hlen] at hrest
      rw [hcopy, run_bind_ok, hrest]
      exact ⟨dest'', by rw [show out.length + off + (len - off) = out.length + len by omega], hall⟩
    · obtain ⟨dest', hcopy, hshows⟩ := h.copy (show len ≤ off by omega) hoff hroom
      rw [hcopy]
      exact ⟨dest', rfl, hshows⟩

theorem loadInput_cons (h : sp < source.length) :
    ∃ b, source.drop sp = b :: source.drop (sp + 1) ∧ ∃ m, loadInput source sp 1 = .ok m ∧ m 0 = b := by
  refine ⟨source[sp], drop_eq_getElem_cons h, _, loadInput_ok (by omega), ?_⟩
  exact getD_eq_getElem _ _ h

theorem readExtension_eq (h : sp ≤ source.length) (len : Nat) :
    (matchExtension len (source.drop sp) = none ∧ readExtension source len sp = .ok none) ∨
      ∃ len' sp', matchExtension len (source.drop sp) = some (len', source.drop sp') ∧ sp' ≤ source.length ∧
        readExtension source len sp = .ok (some (len', sp')) := by
  rw [matchExtension.eq_def, readExtension]
  split_ifs with hlong hend
  · rw [drop_eq_nil_of_le hend]
    exact .inl ⟨rfl, rfl⟩
  · obtain ⟨b, hdrop, m, hload, rfl⟩ := loadInput_cons (Nat.lt_of_not_le hend)
    rw [hdrop, hload]
    exact .inr ⟨_, sp + 1, rfl, by omega, rfl⟩
  · exact .inr ⟨len, sp, rfl, h, rfl⟩

variable {c : Cursor} {src : List UInt8}

section

variable (h : At source cap c (src, out))
include h

theorem readMatch_tracks : Tracks source cap (readMatch source cap c) (decompressMatch cap out src) := by
  obtain ⟨hsrc, hinside, hdp, hroom, hshows⟩ := h
  simp only at hsrc hdp hshows
  rw [readMatch, hsrc]
  split_ifs with hshort
  · have hlen := length_drop (i := c.sp) (l := source)
    match source.drop c.sp, hlen with
    | [], _ | [_], _ => rfl
    | _ :: _ :: _, hlen =>
      rw [length_cons, length_cons] at hlen
      omega
  · have hdrop : source.drop c.sp = source.getD c.sp 0 :: source.getD (c.sp + 1) 0 :: source.drop (c.sp + 2) := by
      rw [getD_eq_getElem _ _ (by omega), getD_eq_getElem _ _ (by omega),
        drop_eq_getElem_cons (by omega), drop_eq_getElem_cons (i := c.sp + 1) (by omega)]
    rw [hdrop, loadInput_ok (by omega), run_bind_ok, decompressMatch]
    simp only [Nat.add_zero]
    generalize source.getD c.sp 0 = t0
    generalize source.getD (c.sp + 1) 0 = t1
    rcases readExtension_eq (show c.sp + 2 ≤ source.length by omega) ((t0.toNat &&& 0x0f) + 3) with
      ⟨hext, hread⟩ | ⟨len, sp, hext, hsp, hread⟩
    · rw [hext, hread]
      rfl
    · rw [hext, hread, run_bind_ok]
      simp only [bind_eq_bind, bind_some, hdp]
      generalize (t0.toNat &&& 0xf0) <<< 4 ||| t1.toNat = off
      split_ifs with hbad
      · rfl
      · rw [not_or, Nat.not_lt] at hbad
        have hpos := Nat.pos_of_ne_zero hbad.1
        obtain ⟨dest, hrun, hcopy⟩ := copyMatch_shows _ hshows (Nat.le_refl _) hpos hbad.2
          (show out.length + min len (cap - out.length) ≤ cap by omega)
        rw [hrun]
        have hlen : out.length + min len (cap - out.length) =
            (copySpans (min len (cap - out.length)) off (min len (cap - out.length)) out).length := by
          rw [copySpans_eq_copyBytes (Nat.le_refl _) hpos hbad.2, Lz4Block.copyBytes_length]
        exact ⟨_, rfl, rfl, hsp, hlen, show out.length + min len (cap - out.length) ≤ cap by omega, hcopy⟩

theorem readLiteral_tracks (hsp : c.sp < source.length) (hdp : c.dp < cap) :
    Tracks source cap (readLiteral source cap c) (decompressItem cap false src out) := by
  obtain ⟨hsrc, hinside, hlen, hroom, hshows⟩ := h
  simp only at hsrc hlen hshows
  obtain ⟨b, hdrop, m, hload, rfl⟩ := loadInput_cons hsp
  rw [readLiteral, hload, run_bind_ok, store_ok _ _ (by omega), hsrc, hdrop]
  refine ⟨_, rfl, rfl, hsp, ?_, hdp, ?_⟩
  · rw [hlen, length_append]
    rfl
  · have hnew : ∀ i, i < [m 0].length → m i = [m 0].getD i 0 := by
      intro i hi
      rw [Nat.lt_one_iff.mp hi]
      rfl
    rw [hlen]
    exact hshows.write hnew

theorem At.more : (c.sp < source.length ∧ c.dp < cap) ↔ ¬ (src = [] ∨ cap ≤ out.length) := by
  rw [show c.dp = out.length from h.dp, show src = source.drop c.sp from h.src, drop_eq_nil_iff]
  omega

end

theorem readGroup_tracks (n ctrl : Nat) (h : At source cap c (src, out)) :
    Tracks source cap (readGroup source cap n ctrl c) (decompressGroup cap n ctrl src out) := by
  induction n generalizing ctrl c src out with
  | zero => exact ⟨c, rfl, h⟩
  | succ n ih =>
    have hbit : ctrl &&& 1 ≠ 0 ↔ ctrl % 2 = 1 := by
      rw [Nat.and_one_is_mod]
      omega
    rw [readGroup, decompressGroup]
    simp only [h.more, hbit, ite_not, Nat.shiftRight_one]
    split_ifs with hend hmatch
    · exact ⟨c, rfl, h⟩
    · rw [decide_eq_true hmatch]
      exact (readMatch_tracks h).bind (fun c r _ hat => ih _ hat)
    · rw [decide_eq_false hmatch]
      obtain ⟨hsp, hdp⟩ := h.more.mpr hend
      exact (readLiteral_tracks h hsp hdp).bind (fun c r _ hat => ih _ hat)

theorem matchExtension_length (h : matchExtension len src = some r) : r.2.length ≤ src.length := by
  rw [matchExtension.eq_def] at h
  split_ifs at h
  · cases src with
    | nil => cases h
    | cons =>
      cases h
      exact Nat.le_succ _
  · cases h
    exact Nat.le_refl _

theorem decompressItem_length (h : decompressItem cap isMatch src out = some r) : r.1.length < src.length := by
  cases isMatch with
  | false =>
    cases src with
    | nil => cases h
    | cons =>
      cases h
      exact Nat.lt_succ_self _
  | true =>
    match src, h with
    | t0 :: t1 :: src, h =>
      obtain ⟨ext, hext, h⟩ := bind_eq_some_iff.mp h
      have hle := matchExtension_length hext
      simp only at h
      split_ifs at h
      cases h
      simp only [length_cons]
      omega

theorem decompressGroup_length (h : decompressGroup cap n ctrl src out = some r) : r.1.length ≤ src.length := by
  induction n generalizing ctrl src out with
  | zero =>
    cases h
    exact Nat.le_refl _
  | succ n ih =>
    rw [decompressGroup] at h
    split_ifs at h
    · cases h
      exact Nat.le_refl _
    · obtain ⟨r', hitem, h⟩ := bind_eq_some_iff.mp h
      exact (ih h).trans (decompressItem_length hitem).le

theorem readGroups_tracks (fuel : Nat) (h : At source cap c (src, out)) (hfuel : src.length ≤ fuel) :
    Tracks source cap (readGroups source cap (fuel + 1) c) (decompressLoop cap fuel src out) := by
  induction fuel generalizing c src out with
  | zero =>
    rw [readGroups, if_neg (by rw [h.more, not_not]; exact .inl (length_eq_zero_iff.mp (by omega)))]
    exact ⟨c, rfl, h⟩
  | succ fuel ih =>
    rw [readGroups]
    simp only [h.more, ite_not]
    split_ifs with hend
    · have hstop : decompressLoop cap (fuel + 1) src out = some (src, out) := by
        cases hend with
        | inl hnil =>
          rw [hnil]
          rfl
        | inr hfull => exact decompressLoop_full hfull _ _
      rw [hstop]
      exact ⟨c, rfl, h⟩
    · obtain ⟨hsp, -⟩ := h.more.mpr hend
      obtain ⟨b, hdrop, m, hload, rfl⟩ := loadInput_cons hsp
      have hsrc : src = source.drop c.sp := h.src
      rw [not_or] at hend
      rw [hload, run_bind_ok, hsrc, hdrop, decompressLoop, if_neg hend.2]
      rw [hsrc, hdrop, length_cons] at hfuel
      have hat : At source cap { c with sp := c.sp + 1 } (source.drop (c.sp + 1), out) :=
        ⟨rfl, hsp, h.dp, h.room, h.shows⟩
      refine (readGroup_tracks 8 _ hat).bind ?_
      intro c r hr hat
      exact ih hat ((decompressGroup_length hr).trans (by omega))

end Memory

/-! ### The reference decoder -/

inductive Corrupt where
  | truncatedTag
  | zeroOffset
  | beforeStart

/-- A match, one byte at a time and cut at the end of the buffer. -/
def referenceMatch (cap len off : Nat) (src out : List UInt8) : Except Corrupt (List UInt8 × List UInt8) :=
  if off = 0 then .error .zeroOffset
  else if out.length < off then .error .beforeStart
  else .ok (src, copyBytes off (min len (cap - out.length)) out)

def referenceItem (cap : Nat) : Bool → List UInt8 → List UInt8 → Except Corrupt (List UInt8 × List UInt8)
  | false, b :: src, out => .ok (src, out ++ [b])
  | true, t0 :: t1 :: src, out =>
    if t0.toNat % 16 = 15 then
      match src with
      | [] => .error .truncatedTag
      | e :: src => referenceMatch cap (18 + e.toNat) (t0.toNat / 16 * 256 + t1.toNat) src out
    else referenceMatch cap (t0.toNat % 16 + 3) (t0.toNat / 16 * 256 + t1.toNat) src out
  | _, _, _ => .error .truncatedTag

/-- The lowest bits of a control byte, lowest first. -/
def flags : Nat → Nat → List Bool
  | 0, _ => []
  | n + 1, ctrl => decide (ctrl % 2 = 1) :: flags n (ctrl / 2)

/-- Item after item while there are bytes to read and to fill; a control byte gives the next eight flags. -/
def reference (cap : Nat) : Nat → List Bool → List UInt8 → List UInt8 → Except Corrupt (List UInt8 × List UInt8)
  | 0, _, src, out => .ok (src, out)
  | fuel + 1, isMatch, src, out =>
    if cap ≤ out.length then .ok (src, out)
    else
      match isMatch, src with
      | _, [] => .ok ([], out)
      | [], ctrl :: src => reference cap fuel (flags 8 ctrl.toNat) src out
      | isMatch :: more, src => do
        let (src, out) ← referenceItem cap isMatch src out
        reference cap fuel more src out

/-- The bytes the reference decoder writes, if its input is not corrupt and, where that is asked for, it
uses up its input and fills its output. -/
def referenceDecompress (source : List UInt8) (cap : Nat) (checkComplete : Bool) : Option (List UInt8) :=
  match reference cap source.length [] source [] with
  | .error _ => none
  | .ok (rest, out) => if checkComplete ∧ (out.length ≠ cap ∨ rest ≠ []) then none else some out

section Reference

variable {cap off : Nat} {src out : List UInt8}

theorem referenceMatch_eq (len : Nat) : (referenceMatch cap len off src out).toOption =
    if off = 0 ∨ out.length < off then none
    else some (src, copySpans (min len (cap - out.length)) off (min len (cap - out.length)) out) := by
  rw [referenceMatch]
  by_cases hzero : off = 0
  · simp [hzero, Except.toOption]
  by_cases hbefore : out.length < off
  · simp [hzero, hbefore, Except.toOption]
  · rw [copySpans_eq_copyBytes (Nat.le_refl _) (by omega) (by omega)]
    simp [hzero, hbefore, Except.toOption]

theorem referenceItem_eq (isMatch : Bool) :
    (referenceItem cap isMatch src out).toOption = decompressItem cap isMatch src out := by
  match isMatch, src with
  | false, [] | false, _ :: _ | true, [] | true, [_] => rfl
  | true, t0 :: t1 :: src =>
    have hlow : (t0.toNat &&& 0x0f) + 3 = t0.toNat % 16 + 3 := by rw [and_low_nibble]
    have hoff : (t0.toNat &&& 0xf0) <<< 4 ||| t1.toNat = t0.toNat / 16 * 256 + t1.toNat := by
      have hor : t0.toNat / 16 * 256 ||| t1.toNat = _ := mul_or (n := 8) t1.toNat_lt
      rw [and_high_nibble t0.toNat_lt, Nat.shiftLeft_eq, Nat.mul_assoc]
      exact hor
    simp only [referenceItem, decompressItem, decompressMatch, hlow, hoff, if_true]
    by_cases hlong : t0.toNat % 16 = 15
    · rw [hlong, if_pos rfl]
      cases src with
      | nil => rfl
      | cons e src => exact referenceMatch_eq _
    · rw [if_neg hlong, matchExtension.eq_def, if_neg (by omega)]
      exact referenceMatch_eq _

theorem reference_eq (fuel fuel' n ctrl : Nat) (hfuel : src.length ≤ fuel) (hfuel' : src.length ≤ fuel') :
    (reference cap fuel (flags n ctrl) src out).toOption =
      (decompressGroup cap n ctrl src out).bind fun r => decompressLoop cap fuel' r.1 r.2 := by
  induction fuel generalizing n ctrl src out fuel' with
  | zero =>
    have hnil : src = [] := length_eq_zero_iff.mp (by omega)
    subst hnil
    cases n <;> cases fuel' <;> simp [decompressGroup, decompressLoop, reference, Except.toOption]
  | succ fuel ih =>
    rw [reference.eq_def]
    by_cases hfull : cap ≤ out.length
    · rw [decompressGroup_full hfull, bind_some, decompressLoop_full hfull]
      simp [hfull, Except.toOption]
    simp only [hfull, if_false]
    cases src with
    | nil =>
      cases n with
      | zero => cases fuel' <;> rfl
      | succ n =>
        rw [decompressGroup, if_pos (.inl rfl)]
        cases fuel' <;> rfl
    | cons b src =>
      simp only [length_cons] at hfuel hfuel'
      cases n with
      | zero =>
        obtain ⟨k, rfl⟩ : ∃ k, fuel' = k + 1 := ⟨fuel' - 1, by omega⟩
        rw [decompressGroup, bind_some, decompressLoop, if_neg hfull]
        exact ih k 8 _ (by omega) (by omega)
      | succ n =>
        have hitem : _ = decompressItem cap _ (b :: src) out := referenceItem_eq (decide (ctrl % 2 = 1))
        rw [decompressGroup, if_neg (by simp [hfull])]
        simp only [flags]
        cases href : referenceItem cap (decide (ctrl % 2 = 1)) (b :: src) out with
        | error =>
          rw [href] at hitem
          rw [← hitem]
          rfl
        | ok r =>
          rw [href] at hitem
          have hlt := decompressItem_length hitem.symm
          simp only [length_cons] at hlt
          rw [← hitem]
          exact ih fuel' n _ (by omega) (by omega)

theorem pglzDecompress_eq_reference (source) (cap : Nat) (checkComplete : Bool) :
    pglzDecompress source cap checkComplete = referenceDecompress source cap checkComplete := by
  have href : (reference cap source.length [] source []).toOption = decompressLoop cap source.length source [] :=
    reference_eq source.length source.length 0 0 (Nat.le_refl _) (Nat.le_refl _)
  rw [pglzDecompress, referenceDecompress, ← href]
  cases reference cap source.length [] source [] <;> rfl

theorem Shows.map_range (h : Shows dest out) : (List.range out.length).map dest = out := by
  apply ext_getElem (by simp)
  intro i hi hlt
  rw [getElem_map, getElem_range, h i hlt, getD_eq_getElem _ _ hlt]

/-- On every input and for every buffer, `pglz_decompress` ends without touching a byte outside its
buffers, and with the reference decoder's answer. -/
theorem pglz_decompress_reference (source : List UInt8) (dest : Mem) (cap : Nat) (checkComplete : Bool) :
    ∃ result, pglzDecompressInto source dest cap checkComplete = .ok result ∧
      result.map (fun r => (List.range r.1).map r.2) = referenceDecompress source cap checkComplete := by
  have hstart : At source cap ⟨0, 0, dest⟩ (source, []) :=
    ⟨rfl, Nat.zero_le _, rfl, Nat.zero_le _, fun i hi => absurd hi (Nat.not_lt_zero i)⟩
  have hrun := readGroups_tracks source.length hstart (Nat.le_refl _)
  rw [← pglzDecompress_eq_reference, pglzDecompressInto, pglzDecompress]
  cases hcase : decompressLoop cap source.length source [] with
  | none =>
    rw [hcase] at hrun
    rw [show readGroups source cap (source.length + 1) ⟨0, 0, dest⟩ = .ok none from hrun]
    exact ⟨none, rfl, rfl⟩
  | some r =>
    rw [hcase] at hrun
    obtain ⟨c, hgroups, hsrc, hinside, hdp, -, hshows⟩ := hrun
    have hend : r.1 ≠ [] ↔ c.sp ≠ source.length := by
      rw [hsrc, ne_eq, drop_eq_nil_iff]
      omega
    rw [hgroups]
    simp only [run_bind_ok, bind_eq_bind, bind_some, hend, hdp]
    split_ifs
    · exact ⟨none, rfl, rfl⟩
    · exact ⟨some (r.2.length, c.dest), rfl, congrArg some hshows.map_range⟩

end Reference

end PglzDecompress
