import Mathlib.Data.List.GetD
import Mathlib.Order.Bounds.Basic
import Mathlib.Order.MinMax

/-!
The granule map of a scan: the prefix sums of its row groups are boundaries that no part of a claim may cross.
The next boundary is found by `binary_search`, whose contract leaves open which of equal entries is hit; the
loop of the standard library hits the last one.
-/
namespace GranuleMap

open List

/-- The loop of `binary_search_by`: of `size` entries from `base` on, one half is left. -/
def narrow (xs : List ℕ) (x size base : ℕ) : ℕ :=
  if 1 < size then
    narrow xs x (size - size / 2) (if x < xs.getD (base + size / 2) 0 then base else base + size / 2)
  else base
termination_by size

/-- `ok` has the index of a hit, `error` the index where the key could stand. -/
def binarySearch (xs : List ℕ) (x : ℕ) : Except ℕ ℕ :=
  let base := narrow xs x xs.length 0
  if xs = [] then .error 0
  else if xs.getD base 0 = x then .ok base
  else .error (if xs.getD base 0 < x then base + 1 else base)

structure Map where
  total : ℕ
  starts : List ℕ
  c0 : ℕ

def withBoundaries (starts : List ℕ) (c0 : ℕ) : Map := ⟨starts.getLast?.getD 0, starts, c0⟩

/-- The entry behind the hit, or the one the search stops at. -/
def entryAfter (starts : List ℕ) (x : ℕ) : Option ℕ :=
  match binarySearch starts x with
  | .ok i => starts[i + 1]?
  | .error i => starts[i]?

def Map.boundaryAfter (m : Map) (start : ℕ) : ℕ := (entryAfter m.starts start).getD m.total

structure Segments where
  starts : List ℕ
  next : ℕ
  stop : ℕ

def Map.segments (m : Map) (claim : ℕ × ℕ) : Segments := ⟨m.starts, claim.1, claim.2⟩

def Segments.segEnd (s : Segments) : ℕ := min ((entryAfter s.starts s.next).getD s.stop) s.stop

/-- `Segments::next`: the segment and the iterator behind it. -/
def Segments.step (s : Segments) : Option ((ℕ × ℕ) × Segments) :=
  if s.stop ≤ s.next then none else some ((s.next, s.segEnd), { s with next := s.segEnd })

/-- The iteration ends, with these segments. -/
inductive Yields : Segments → List (ℕ × ℕ) → Prop
  | done (h : s.step = none) : Yields s []
  | next (h : s.step = some (r, s')) (hrest : Yields s' rs) : Yields s (r :: rs)

/-- Ranges that are not empty and make up the one from `a` to `b`, each beginning where the one before ends. -/
def Tiles (b : ℕ) : ℕ → List (ℕ × ℕ) → Prop
  | a, [] => a = b
  | a, r :: rs => r.1 = a ∧ a < r.2 ∧ Tiles b r.2 rs

/-- No boundary is strictly inside. -/
def Whole (starts : List ℕ) (r : ℕ × ℕ) : Prop := ∀ e ∈ starts, ¬ (r.1 < e ∧ e < r.2)

section Next

variable {starts : List ℕ} {x y i j : ℕ} (hsorted : starts.Pairwise (· ≤ ·))
include hsorted

theorem getD_le (hij : i ≤ j) (hj : j < starts.length) : starts.getD i 0 ≤ starts.getD j 0 := by
  rw [getD_eq_getElem _ _ hj, getD_eq_getElem _ _ (hij.trans_lt hj)]
  rcases Nat.eq_or_lt_of_le hij with rfl | hlt
  · exact Nat.le_refl _
  · exact pairwise_iff_getElem.mp hsorted i j _ hj hlt

/-- The entries behind those that are left are greater; the first of those left is not, or it is the first of all. -/
theorem narrow_spec (size base : ℕ) (hsize : 0 < size) (hend : base + size ≤ starts.length)
    (hlow : base = 0 ∨ starts.getD base 0 ≤ x) (hhigh : ∀ j < starts.length, base + size ≤ j → x < starts.getD j 0) :
    narrow starts x size base < starts.length ∧
      (narrow starts x size base = 0 ∨ starts.getD (narrow starts x size base) 0 ≤ x) ∧
      ∀ j < starts.length, narrow starts x size base < j → x < starts.getD j 0 := by
  fun_induction narrow starts x size base with
  | case1 size base hmore ih =>
    apply ih
    · omega
    · split_ifs <;> omega
    · split_ifs with hx
      · exact hlow
      · exact .inr (Nat.le_of_not_lt hx)
    · intro j hj hle
      split_ifs at hle with hx
      · exact hx.trans_le (getD_le hsorted (by omega) hj)
      · exact hhigh j hj (by omega)
  | case2 size base hone => exact ⟨by omega, hlow, fun j hj hlt => hhigh j hj (by omega)⟩

/-- The index of the entry splits the boundaries at `x`. -/
theorem exists_split (x : ℕ) : ∃ k, entryAfter starts x = starts[k]? ∧
    ∀ j < starts.length, (j < k → starts.getD j 0 ≤ x) ∧ (k ≤ j → x < starts.getD j 0) := by
  rw [entryAfter, binarySearch]
  by_cases hnil : starts = []
  · subst hnil
    exact ⟨0, rfl, nofun⟩
  · obtain ⟨hlt, hlow, hhigh⟩ := narrow_spec (x := x) hsorted starts.length 0 (length_pos_iff.mpr hnil)
      (Nat.zero_add _).le (.inl rfl) (by omega)
    generalize narrow starts x starts.length 0 = base at hlt hlow hhigh
    simp only [if_neg hnil]
    by_cases hbase : starts.getD base 0 ≤ x
    · -- the entry at hand is the last one that is not greater
      refine ⟨base + 1, ?_, fun j hj => ⟨fun hle => ?_, hhigh j hj⟩⟩
      · split_ifs <;> first | rfl | omega
      · exact (getD_le hsorted (Nat.le_of_lt_succ hle) hlt).trans hbase
    · obtain rfl := hlow.resolve_right hbase
      refine ⟨0, ?_, fun j hj => ⟨nofun, fun _ => ?_⟩⟩
      · split_ifs <;> first | rfl | omega
      · exact (Nat.lt_of_not_le hbase).trans_le (getD_le hsorted (Nat.zero_le j) hj)

theorem entryAfter_some (h : entryAfter starts x = some y) : IsLeast {b | b ∈ starts ∧ x < b} y := by
  obtain ⟨k, hk, hsplit⟩ := exists_split hsorted x
  rw [hk] at h
  obtain ⟨hlen, hy⟩ := List.getElem?_eq_some_iff.mp h
  rw [← getD_eq_getElem _ 0] at hy
  refine ⟨⟨mem_of_getElem? h, hy ▸ (hsplit k hlen).2 (Nat.le_refl _)⟩, ?_⟩
  rintro b ⟨hb, hxb⟩
  obtain ⟨j, hj, rfl⟩ := mem_iff_getElem.mp hb
  rw [← getD_eq_getElem _ 0] at hxb ⊢
  rw [← hy]
  refine getD_le hsorted (Nat.le_of_not_lt (fun hlt => ?_)) hj
  exact Nat.not_lt.mpr ((hsplit j hj).1 hlt) hxb

theorem entryAfter_none (h : entryAfter starts x = none) (hy : y ∈ starts) : y ≤ x := by
  obtain ⟨k, hk, hsplit⟩ := exists_split hsorted x
  rw [hk, List.getElem?_eq_none_iff] at h
  obtain ⟨j, hj, rfl⟩ := mem_iff_getElem.mp hy
  rw [← getD_eq_getElem _ 0]
  exact (hsplit j hj).1 (hj.trans_le h)

theorem boundaryAfter_isLeast (h : start < (withBoundaries starts c0).total) :
    IsLeast {b | b ∈ starts ∧ start < b} ((withBoundaries starts c0).boundaryAfter start) := by
  rw [Map.boundaryAfter]
  cases hentry : entryAfter (withBoundaries starts c0).starts start with
  | some b => exact entryAfter_some hsorted hentry
  | none =>
    -- the total is a boundary
    rw [withBoundaries] at h
    cases hend : starts.getLast? with
    | none => simp [hend] at h
    | some e =>
      rw [hend] at h
      exact absurd h (Nat.not_lt.mpr (entryAfter_none hsorted hentry (mem_of_getLast? hend)))

/-- A segment is not empty and crosses no boundary. -/
theorem segEnd_spec (hlt : a < b) :
    a < Segments.segEnd ⟨starts, a, b⟩ ∧ Whole starts (a, Segments.segEnd ⟨starts, a, b⟩) := by
  rw [Segments.segEnd]
  cases hentry : entryAfter starts a with
  | some y =>
    obtain ⟨⟨-, hy⟩, hleast⟩ := entryAfter_some hsorted hentry
    refine ⟨lt_min hy hlt, fun e he hin => ?_⟩
    exact Nat.not_le.mpr (lt_min_iff.mp hin.2).1 (hleast ⟨he, hin.1⟩)
  | none =>
    refine ⟨lt_min hlt hlt, fun e he hin => ?_⟩
    exact Nat.not_lt.mpr (entryAfter_none hsorted hentry he) hin.1

/-- What is left of a claim is cut into segments; after each one less is left. -/
theorem exists_yields (n a b : ℕ) (hn : b - a ≤ n) (hab : a ≤ b) :
    ∃ rs, Yields ⟨starts, a, b⟩ rs ∧ Tiles b a rs ∧ ∀ r ∈ rs, Whole starts r := by
  rcases Nat.eq_or_lt_of_le hab with rfl | hlt
  · exact ⟨[], .done (if_pos (Nat.le_refl _)), rfl, nofun⟩
  · cases n with
    | zero => omega
    | succ n =>
      obtain ⟨hpos, hwhole⟩ := segEnd_spec hsorted hlt
      have hle : Segments.segEnd ⟨starts, a, b⟩ ≤ b := Nat.min_le_right _ _
      obtain ⟨rs, hrs, htiles, hrest⟩ := exists_yields n _ b (by omega) hle
      exact ⟨_, .next (if_neg (Nat.not_le.mpr hlt)) hrs, ⟨rfl, hpos, htiles⟩, forall_mem_cons.mpr ⟨hwhole, hrest⟩⟩

end Next

/-- The next boundary is found, and claims are cut at boundaries only. -/
theorem segments_respect_boundaries (starts : List ℕ) (c0 : ℕ) (hsorted : starts.Pairwise (· ≤ ·)) :
    (∀ start < (withBoundaries starts c0).total,
      IsLeast {b | b ∈ starts ∧ start < b} ((withBoundaries starts c0).boundaryAfter start)) ∧
    ∀ start stop, start ≤ stop → stop ≤ (withBoundaries starts c0).total →
      ∃ rs, Yields ((withBoundaries starts c0).segments (start, stop)) rs ∧ Tiles stop start rs ∧
        ∀ r ∈ rs, Whole starts r :=
  ⟨fun _ => boundaryAfter_isLeast hsorted, fun _ _ hle _ => exists_yields hsorted _ _ _ (Nat.le_refl _) hle⟩

theorem segments_respect_boundaries_fives :
    IsLeast {b | b ∈ [0, 5, 5, 9] ∧ 5 < b} ((withBoundaries [0, 5, 5, 9] 2).boundaryAfter 5) :=
  (segments_respect_boundaries [0, 5, 5, 9] 2 (by decide)).1 5 (by decide)

end GranuleMap
