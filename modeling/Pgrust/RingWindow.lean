import Mathlib.Data.List.Basic

/-!
A ring of cells seen from absolute positions: position `p` of an endless stream lives in cell `p % size`,
as long as the window of positions in use is not wider than the ring. The stream is made of frames laid end
to end; a frame may leave some of its cells open.
-/

namespace RingWindow

variable {α M : Type}

/-- The cells of the positions from `lo` to `hi` hold what the stream has there. -/
def Shown (size : Nat) (ring : Nat → α) (stream : List (Option α)) (lo hi : Nat) : Prop :=
  ∀ p b, lo ≤ p → p < hi → stream[p]? = some (some b) → ring (p % size) = b

variable {size lo hi hi' : Nat} {ring : Nat → α} {stream : List (Option α)}

section

variable (h : Shown size ring stream lo hi)
include h

theorem Shown.mono (hlo : lo ≤ lo') (hhi : hi' ≤ hi) : Shown size ring stream lo' hi' := by
  intro p b hp hp' hb
  exact h p b (Nat.le_trans hlo hp) (Nat.lt_of_lt_of_le hp' hhi) hb

/-- A longer stream has the same contents where the shorter one has any. -/
theorem Shown.extend (hpre : stream <+: stream') (hhi : hi ≤ stream.length) : Shown size ring stream' lo hi := by
  intro p b hp hp' hb
  apply h p b hp hp'
  obtain ⟨rest, rfl⟩ := hpre
  rw [List.getElem?_append_left (by omega)] at hb
  exact hb

/-- Open cells are shown whatever they hold. -/
theorem Shown.skip
    (hopen : ∀ p, hi ≤ p → p < hi' → ∀ b, stream[p]? ≠ some (some b)) : Shown size ring stream lo hi' := by
  intro p b hp hp' hb
  by_cases hlt : p < hi
  · exact h p b hp hlt hb
  · exact absurd hb (hopen p (Nat.le_of_not_lt hlt) hp' b)

/-- A write behind the window, no further than the ring reaches, extends the window. -/
theorem Shown.push (hroom : hi < lo + size) (hb : stream[hi]? = some (some b)) :
    Shown size (Function.update ring (hi % size) b) stream lo (hi + 1) := by
  intro p c hp hp' hc
  by_cases heq : p = hi
  · rw [heq] at hc ⊢
    rw [Function.update_self]
    rw [hb] at hc
    exact Option.some.inj (Option.some.inj hc)
  · have hne : p % size ≠ hi % size := by
      intro hmod
      have hdvd : size ∣ hi - p := Nat.dvd_of_mod_eq_zero (Nat.sub_mod_eq_zero_of_mod_eq hmod.symm)
      have hle := Nat.le_of_dvd (by omega) hdvd
      omega
    rw [Function.update_of_ne hne]
    exact h p c hp (by omega) hc

end

/-- Positions that do not cross the end of the ring have their cells in a row. -/
theorem mod_add (h : p % size + i < size) : (p + i) % size = p % size + i := by
  rw [Nat.add_mod, Nat.mod_eq_of_lt (show i < size by omega), Nat.mod_eq_of_lt h]

section Frames

variable (frame : M → List (Option α))

/-- The frames of the messages, one after the other. -/
def streamOf (ms : List M) : List (Option α) := ms.flatMap frame

/-- Where the frame after those of `ms` begins. -/
def base (ms : List M) : Nat := (streamOf frame ms).length

variable {frame} {ms : List M}

theorem streamOf_append (ms ms' : List M) :
    streamOf frame (ms ++ ms') = streamOf frame ms ++ streamOf frame ms' := List.flatMap_append

theorem base_append (ms ms' : List M) : base frame (ms ++ ms') = base frame ms + base frame ms' := by
  rw [base, streamOf_append, List.length_append]
  rfl

theorem base_singleton (m : M) : base frame [m] = (frame m).length := by
  rw [base, streamOf, List.flatMap_singleton]

theorem base_concat (ms) (m : M) : base frame (ms ++ [m]) = base frame ms + (frame m).length := by
  rw [base_append, base_singleton]

theorem streamOf_initial (h : ms <+: ms') : streamOf frame ms <+: streamOf frame ms' := by
  obtain ⟨rest, rfl⟩ := h
  exact ⟨streamOf frame rest, (streamOf_append ms rest).symm⟩

theorem base_mono (h : ms <+: ms') : base frame ms ≤ base frame ms' := (streamOf_initial h).length_le

/-- The contents of the frame that follows those of `ms`. -/
theorem streamOf_frame (h : ms ++ [m] <+: ms') (hi : i < (frame m).length) :
    (streamOf frame ms')[base frame ms + i]? = (frame m)[i]? := by
  obtain ⟨rest, rfl⟩ := h
  rw [base, streamOf_append, streamOf_append, List.append_assoc,
    List.getElem?_append_right (Nat.le_add_right _ _), Nat.add_sub_cancel_left]
  have hone : streamOf frame [m] = frame m := by
    rw [streamOf, List.flatMap_singleton]
  rw [hone, List.getElem?_append_left hi]

end Frames

end RingWindow
