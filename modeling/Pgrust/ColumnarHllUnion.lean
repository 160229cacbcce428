import Pgrust.ColumnarHll

/-!
# Sketches put together in any way

However the hashes of a column are spread over sketches, added, merged and
passed through their blobs, the registers are those of one sketch that saw them
all. A blob is read exactly where it describes registers.
-/
namespace ColumnarHllUnion

open ByteImage ColumnarFormat ColumnarHll List Option

variable {s : Hll} {b : List UInt8}

theorem merge_comm (a b : Hll) : a.merge b = b.merge a := by
  ext i
  simp only [Hll.merge, UInt8.lt_iff_toNat_lt]
  split_ifs <;> omega

theorem merge_empty (a : Hll) : a.merge Hll.empty = a := by rw [merge_comm, empty_merge]

theorem addHash_right_comm (s : Hll) (g h : BitVec 64) : (s.addHash g).addHash h = (s.addHash h).addHash g := by
  simp only [addHash_eq_merge]
  rw [merge_assoc, merge_comm (Hll.single g), ← merge_assoc]

theorem foldl_addHash_merge (hs : List (BitVec 64)) (s o : Hll) :
    hs.foldl Hll.addHash (s.merge o) = s.merge (hs.foldl Hll.addHash o) := by
  induction hs generalizing o with
  | nil => rfl
  | cons h hs ih =>
    have hadd : (s.merge o).addHash h = s.merge (o.addHash h) := by
      rw [addHash_eq_merge, addHash_eq_merge o, merge_assoc]
    rw [foldl_cons, foldl_cons, hadd, ih]

/-- The registers an entry list stands for: the last entry of a bucket counts. -/
def ofEntries (entries : List (Fin hllM × UInt8)) : Hll := ⟨fun i => (entries.reverse.lookup i).getD 0⟩

/-- The two forms of a blob and the registers each describes. The two reserved
bytes of the header say nothing. -/
inductive Describes : List UInt8 → Hll → Prop
  | dense (r₀ r₁ : UInt8) (s : Hll) : Describes ([1, 14, r₀, r₁] ++ (List.finRange hllM).map s.regs) s
  | sparse (r₀ r₁ : UInt8) (entries : List (Fin hllM × UInt8)) (fits : entries.length < 2 ^ 32) :
    Describes ([2, 14, r₀, r₁] ++ putU32 entries.length ++ (entries.map sparseEntry).flatten) (ofEntries entries)

theorem sparseEntry_length (e : Fin hllM × UInt8) : (sparseEntry e).length = 3 := by
  simp [sparseEntry]

theorem readEntry_sparseEntry (s : Hll) (e : Fin hllM × UInt8) :
    readEntry s (sparseEntry e) = some ⟨Function.update s.regs e.1 e.2⟩ := by
  have htake : (sparseEntry e).take 2 = putU16 e.1 := by
    rw [sparseEntry, take_left' (putU16_length _)]
  have hidx : leNat ((sparseEntry e).take 2) = e.1 := by
    have hlt : (e.1 : Nat) < 2 ^ 14 := e.1.isLt
    rw [htake, putU16, leNat_leBytes_of_lt (by omega)]
  have hval : (sparseEntry e).getD 2 0 = e.2 := by
    rfl
  simp only [readEntry, hidx, hval, e.1.isLt, dif_pos, Fin.eta]

theorem ofEntries_append (entries : List (Fin hllM × UInt8)) (e : Fin hllM × UInt8) :
    ofEntries (entries ++ [e]) = ⟨Function.update (ofEntries entries).regs e.1 e.2⟩ := by
  ext i
  obtain ⟨j, v⟩ := e
  by_cases hi : i = j
  · simp [ofEntries, hi]
  · have hne : (i == j) = false := beq_false_of_ne hi
    simp [ofEntries, lookup_cons, hne, hi]

theorem foldlM_readEntry (entries : List (Fin hllM × UInt8)) :
    (entries.map sparseEntry).foldlM readEntry Hll.empty = some (ofEntries entries) := by
  induction entries using List.reverseRecOn with
  | nil => rfl
  | append_singleton entries e ih =>
    rw [map_append, foldlM_append, ih]
    simp only [some_bind, map_cons, map_nil, foldlM_cons, foldlM_nil, readEntry_sparseEntry, ofEntries_append]
    rfl

theorem fromBlob_of_describes (h : Describes b s) : Hll.fromBlob b = some s := by
  cases h with
  | dense r₀ r₁ s =>
    have hlen : ([1, 14, r₀, r₁] ++ (List.finRange hllM).map s.regs).length = 4 + hllM := by
      simp only [length_append, length_map, length_finRange, length_cons, length_nil]
    have hreg : ∀ i : Fin hllM, ([1, 14, r₀, r₁] ++ (List.finRange hllM).map s.regs).getD (4 + i) 0 = s.regs i := by
      intro i
      rw [getD_append_right _ _ _ _ (by simp)]
      simp
    rw [Hll.fromBlob, if_neg (by rw [hlen]; simp), if_pos (by simp), if_neg (fun hne => hne hlen)]
    simp only [hreg]
  | sparse r₀ r₁ entries fits =>
    have hflat := flatten_map_length sparseEntry_length entries
    have hcount : getU32 ([2, 14, r₀, r₁] ++ putU32 entries.length ++
        (entries.map sparseEntry).flatten) 4 = some entries.length :=
      getU32_of_sits (sits_middle [2, 14, r₀, r₁] _ _) fits
    have hdrop : ([2, 14, r₀, r₁] ++ putU32 entries.length ++
        (entries.map sparseEntry).flatten).drop 8 = (entries.map sparseEntry).flatten := drop_left' (by simp)
    rw [Hll.fromBlob, if_neg (by simp), if_neg (by simp), if_pos (by simp), hcount]
    simp only [bind_eq_bind, bind_some]
    rw [if_neg (by simp [hflat]; omega), hdrop, lanes_map sparseEntry_length, bind_some, foldlM_readEntry]

theorem readEntry_eq (hlen : lane.length = 3) (h : readEntry s lane = some s') : ∃ e, lane = sparseEntry e := by
  simp only [readEntry] at h
  split at h
  case isTrue hidx =>
    refine ⟨(⟨leNat (lane.take 2), hidx⟩, lane.getD 2 0), ?_⟩
    have hput : putU16 (leNat (lane.take 2)) = lane.take 2 := leBytes_leNat (by simp [hlen])
    have hdrop : lane.drop 2 = [lane.getD 2 0] := by
      rw [drop_eq_getElem_cons (by omega), drop_of_length_le (by omega), getD_eq_getElem _ _ (by omega)]
    simp only [sparseEntry, hput, ← hdrop, take_append_drop]
  case isFalse => cases h

theorem foldlM_readEntry_eq (hw : ∀ x ∈ xs, x.length = 3) (h : xs.foldlM readEntry s = some s') :
    ∃ entries, xs = List.map sparseEntry entries := by
  induction xs generalizing s with
  | nil => exact ⟨[], rfl⟩
  | cons x xs ih =>
    obtain ⟨s₁, hx, hxs⟩ := bind_eq_some_iff.mp h
    obtain ⟨e, rfl⟩ := readEntry_eq (hw x (mem_cons_self ..)) hx
    obtain ⟨entries, rfl⟩ := ih (forall_mem_cons.mp hw).2 hxs
    exact ⟨e :: entries, rfl⟩

theorem eq_map_getD {rest : List UInt8} {n : Nat} (hlen : rest.length = n) :
    rest = (List.finRange n).map (fun i : Fin n => rest.getD i 0) := by
  apply ext_getElem
  · simp [hlen]
  · intro i hi _
    simp [hi]

theorem describes_of_fromBlob (h : Hll.fromBlob b = some s) : Describes b s := by
  rcases b with _ | ⟨tag, _ | ⟨p, _ | ⟨r₀, _ | ⟨r₁, rest⟩⟩⟩⟩
  iterate 4 simp [Hll.fromBlob] at h
  simp only [Hll.fromBlob] at h
  split at h
  case isTrue => cases h
  case isFalse hhead =>
  have hp : p = 14 := by simpa using hhead
  subst hp
  split_ifs at h with h₁ hlen h₂
  · have hrest : rest.length = hllM := by
      simp only [length_cons] at hlen
      omega
    have htag : tag = 1 := by simpa using h₁
    cases h
    subst htag
    have hregs := eq_map_getD hrest
    have hdense := Describes.dense r₀ r₁ ⟨fun i => rest.getD i 0⟩
    simp only [← hregs] at hdense
    simpa [Nat.add_comm 4] using hdense
  · have htag : tag = 2 := by simpa using h₂
    subst htag
    obtain ⟨n, hn, h⟩ := bind_eq_some_iff.mp h
    split at h
    case isTrue => cases h
    case isFalse hlen =>
    obtain ⟨xs, hxs, h⟩ := bind_eq_some_iff.mp h
    simp only [drop_succ_cons, length_cons, not_not] at hxs hlen
    have hcount : leNat (rest.take 4) = n := by
      simpa [getU32, slice, show 4 + 4 ≤ rest.length + 1 + 1 + 1 + 1 by omega] using hn
    have hfour : (rest.take 4).length = 4 := by rw [length_take]; omega
    obtain ⟨hxn, hcut, hw⟩ := lanes_eq (by rw [length_drop]; omega) hxs
    obtain ⟨entries, rfl⟩ := foldlM_readEntry_eq hw h
    rw [foldlM_readEntry] at h
    cases h
    rw [length_map] at hxn
    have hput : putU32 entries.length = rest.take 4 := by
      rw [hxn, ← hcount]
      exact leBytes_leNat hfour
    have hlt := leNat_lt (rest.take 4)
    rw [hfour, hcount, ← hxn] at hlt
    have hsparse := Describes.sparse r₀ r₁ entries (by omega)
    rw [hput, ← hcut, append_assoc, take_append_drop] at hsparse
    exact hsparse

theorem fromBlob_iff (b) (s : Hll) : Hll.fromBlob b = some s ↔ Describes b s :=
  ⟨describes_of_fromBlob, fromBlob_of_describes⟩

theorem lookup_entries (s : Hll) (idxs : List (Fin hllM)) (i : Fin hllM) :
    ((idxs.map (fun i => (i, s.regs i))).lookup i).getD 0 = if i ∈ idxs then s.regs i else 0 := by
  induction idxs with
  | nil => rfl
  | cons j idxs ih =>
    by_cases hi : i = j
    · simp [hi]
    · have hne : (i == j) = false := beq_false_of_ne hi
      simp [lookup_cons, hne, ih, hi]

theorem ofEntries_entries (s : Hll) : ofEntries s.entries = s := by
  ext i
  simp only [ofEntries, Hll.entries, ← map_reverse, lookup_entries]
  by_cases hi : s.regs i = 0
  · simp [hi]
  · simp [hi]

theorem toBlob_describes (s : Hll) : Describes s.toBlob s := by
  rw [Hll.toBlob]
  split
  case isTrue hsmall =>
    have hM : hllM = 2 ^ 14 := rfl
    have hsparse := Describes.sparse 0 0 s.entries (by omega)
    rwa [ofEntries_entries] at hsparse
  case isFalse => exact Describes.dense 0 0 s

/-- A way of building a sketch. -/
inductive Sketching
  | empty
  | add (t : Sketching) (h : BitVec 64)
  | merge (t u : Sketching)
  | reload (t : Sketching)

namespace Sketching

/-- The hashes that go in. -/
def hashes : Sketching → List (BitVec 64)
  | empty => []
  | add t h => t.hashes ++ [h]
  | merge t u => t.hashes ++ u.hashes
  | reload t => t.hashes

/-- The sketch that comes out, nothing where a blob is refused on the way. -/
def run : Sketching → Option Hll
  | empty => some Hll.empty
  | add t h => t.run.map (·.addHash h)
  | merge t u => t.run.bind (fun s => u.run.map (fun o => s.merge o))
  | reload t => t.run.bind (fun s => Hll.fromBlob s.toBlob)

theorem run_eq (t : Sketching) : t.run = some (t.hashes.foldl Hll.addHash Hll.empty) := by
  induction t with
  | empty => rfl
  | add t h ih => simp [run, hashes, ih]
  | merge t u iht ihu =>
    rw [hashes, foldl_append, run, iht, ihu, bind_some, map_some, ← foldl_addHash_merge, merge_empty]
  | reload t ih =>
    have hblob := (fromBlob_iff _ _).mpr (toBlob_describes (t.hashes.foldl Hll.addHash Hll.empty))
    rw [run, hashes, ih, bind_some, hblob]

end Sketching

/-- Grouping does not matter, and reading a blob is the inverse of writing one:
what describes registers is read as them, anything else is refused. -/
theorem sketch_independent :
    (∀ (t : Sketching) (hs : List (BitVec 64)), hs.Perm t.hashes → t.run = some (hs.foldl Hll.addHash Hll.empty)) ∧
    (∀ b s, Hll.fromBlob b = some s ↔ Describes b s ∧ Describes s.toBlob s) ∧
    ∀ b, (∀ s, ¬ Describes b s) → Hll.fromBlob b = none := by
  refine ⟨?_, ?_, ?_⟩
  · intro t hs hperm
    rw [t.run_eq, hperm.foldl_eq' (fun g _ h _ s => addHash_right_comm s g h)]
  · intro b s
    rw [fromBlob_iff, and_iff_left (toBlob_describes s)]
  · intro b hb
    exact eq_none_iff_forall_ne_some.mpr (fun s hs => hb s ((fromBlob_iff b s).mp hs))

theorem two_halves_independent :
    (Sketching.merge (.add .empty 5) (.reload (.add .empty 7))).run = some ([7, 5].foldl Hll.addHash Hll.empty) ∧
    Hll.fromBlob [3, 14, 0, 0] = none := by
  refine ⟨sketch_independent.1 _ _ (List.Perm.swap _ _ _), sketch_independent.2.2 _ ?_⟩
  nofun

end ColumnarHllUnion
