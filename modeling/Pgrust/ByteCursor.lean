import Pgrust.ByteImage

/-!
# Sequential readers

A reader takes its value from the front of the bytes it is given and leaves the
rest. `Reads` says that it reads a given image back whatever follows, which composes
along the reader's own sequence.
-/
namespace ByteCursor

open ByteImage List

abbrev Cursor (α : Type) := StateT (List UInt8) Option α

/-- The next `n` bytes. -/
def bytes (n : Nat) : Cursor (List UInt8) := fun b => if n ≤ b.length then some (b.take n, b.drop n) else none

/-- The next `w`-byte little-endian word. -/
def word (w : Nat) : Cursor Nat := do
  let m ← bytes w
  pure (leNat m)

def many {α : Type} (rd : Cursor α) : Nat → Cursor (List α)
  | 0 => pure []
  | n + 1 => do
    let v ← rd
    let vs ← many rd n
    pure (v :: vs)

/-- Moves past `n` bytes without looking at them. -/
def skip (n : Nat) : Cursor Unit := fun b => some ((), b.drop n)

/-- A section that is there under a condition. -/
def section? {α : Type} (present : Bool) (absent : α) (rd : Cursor α) : Cursor α :=
  if present then rd else pure absent

/-- `rd` reads `v` from the image `m`. -/
def Reads {α : Type} (rd : Cursor α) (m : List UInt8) (v : α) : Prop := ∀ rest, rd (m ++ rest) = some (v, rest)

variable {α β : Type}

theorem Reads.pure (v : α) : Reads (Pure.pure v) [] v := fun _ => rfl

theorem Reads.bind {rd : Cursor α} {k : α → Cursor β} {m m' : List UInt8} {v : α} {w : β}
    (h : Reads rd m v) (hk : Reads (k v) m' w) : Reads (rd >>= k) (m ++ m') w := by
  intro rest
  have hrd := h (m' ++ rest)
  rw [← append_assoc] at hrd
  simp only [Bind.bind, StateT.bind, hrd]
  exact hk rest

variable {rd : Cursor α} {m : List UInt8} {v : α} {n w : Nat}

/-- The last step of a sequence builds the value. -/
theorem Reads.map (f : α → β) (h : Reads rd m v) : Reads (rd >>= fun v => Pure.pure (f v)) m (f v) := by
  have hpure : Reads (Pure.pure (f v)) [] (f v) := Reads.pure (f v)
  have := @Reads.bind _ _ rd (fun v => Pure.pure (f v)) m [] v (f v) h hpure
  rwa [append_nil] at this

theorem Reads.present (absent : α) (hb : b = true) (h : Reads rd m v) : Reads (section? b absent rd) m v := by
  rw [section?, if_pos hb]
  exact h

theorem Reads.unique {w : α} (h : Reads rd m v) (h' : Reads rd m w) : v = w := by
  have := (h []).symm.trans (h' [])
  cases this
  rfl

/-- `rd` takes `n` bytes and accepts any. -/
def Wide (rd : Cursor α) (n : Nat) : Prop := ∀ m : List UInt8, m.length = n → ∃ v, Reads rd m v

theorem exists_append_of_le {b : List UInt8} {n k : Nat} (h : b.length = n + k) :
    ∃ m rest, b = m ++ rest ∧ m.length = n ∧ rest.length = k := by
  refine ⟨b.take n, b.drop n, (take_append_drop n b).symm, ?_, ?_⟩
  · rw [length_take]
    omega
  · rw [length_drop]
    omega

theorem Wide.bind {rd : Cursor α} {k : α → Cursor β} {n n' : Nat} (h : Wide rd n)
    (hk : ∀ v, Wide (k v) n') : Wide (rd >>= k) (n + n') := by
  intro b hb
  obtain ⟨m, rest, rfl, hm, hrest⟩ := exists_append_of_le hb
  obtain ⟨v, hv⟩ := h m hm
  obtain ⟨w, hw⟩ := hk v rest hrest
  exact ⟨w, hv.bind hw⟩

theorem Wide.map (f : α → β) (h : Wide rd n) : Wide (rd >>= fun v => Pure.pure (f v)) n := by
  intro m hm
  obtain ⟨v, hv⟩ := h m hm
  exact ⟨f v, hv.map f⟩

end ByteCursor
