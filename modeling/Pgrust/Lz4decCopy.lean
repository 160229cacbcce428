import Pgrust.Lz4dec

/-!
# The wide copies of the LZ4 decoder

Each kernel leaves the bytes below the end of its copy as byte-by-byte copying
would, and spills at most 31 bytes behind it.
-/
namespace Lz4dec

open Lz4Block (spread spread_back spread_of_lt)

@[simp] theorem run_bind_ok {α β : Type} (a : α) (f : α → Run β) : ((Except.ok a : Run α) >>= f) = f a := rfl

variable {limit src n dst k op offset : Nat} {mem : Mem}

theorem load_ok (out : Mem) (h : src + n ≤ limit) : load limit out src n = .ok (fun j => out (src + j)) := by
  simp [load, h]

theorem loadInput_ok (h : src + n ≤ input.length) :
    loadInput input src n = .ok (fun j => input.getD (src + j) 0) := by
  simp [loadInput, h]

theorem store_ok (out chunk : Mem) (h : dst + n ≤ limit) :
    store limit out dst n chunk = .ok (write out dst n chunk) := by
  simp [store, h]

theorem ptrSub_ok (h : d ≤ p) : ptrSub p d = .ok (p - d) := by
  simp [ptrSub, h]

theorem copyNonoverlapping_eq (out : Mem) (hsep : src + n ≤ dst) :
    copyNonoverlapping limit out src dst n = load limit out src n >>= store limit out dst n := by
  simp [copyNonoverlapping, hsep]

theorem write_lt (out chunk : Mem) (h : k < dst) : write out dst n chunk k = out k := by
  have hk : ¬ dst ≤ k := by omega
  simp [write, hk]

theorem write_ge (out chunk : Mem) (h : dst + n ≤ k) : write out dst n chunk k = out k := by
  have hk : ¬ k < dst + n := by omega
  simp [write, hk]

theorem write_in (out chunk : Mem) (h₁ : dst ≤ k) (h₂ : k < dst + n) :
    write out dst n chunk k = chunk (k - dst) := by
  simp [write, h₁, h₂]

/-- The bytes below `n` are those that copying one byte at a time leaves. -/
def SpreadTo (mem : Mem) (op offset : Nat) (out : Mem) (n : Nat) : Prop :=
  ∀ k, k < n → out k = spread mem op offset k

/-- A copy of 16 bytes from a multiple of the offset back commits as many bytes as that distance. -/
theorem copyBack_ok (m : Nat) (hout : SpreadTo mem op offset out dst) (hdst : op - offset + m * offset ≤ dst)
    (hback : 0 < m * offset) (hlimit : dst + 16 ≤ limit) :
    ∃ out', load limit out (dst - m * offset) 16 >>= store limit out dst 16 = .ok out' ∧
      SpreadTo mem op offset out' (dst + min 16 (m * offset)) ∧ ∀ k, dst + 16 ≤ k → out' k = out k := by
  rw [load_ok out (by omega), run_bind_ok, store_ok _ _ hlimit]
  refine ⟨_, rfl, fun k hk => ?_, fun k hk => write_ge _ _ hk⟩
  rcases Nat.lt_or_ge k dst with hlt | hge
  · rw [write_lt _ _ hlt, hout k hlt]
  · rw [write_in _ _ hge (by omega)]
    have hidx : dst - m * offset + (k - dst) = k - m * offset := by omega
    rw [hidx, hout _ (by omega)]
    exact spread_back mem m (by omega)

/-- The region a copy may change ends 31 bytes behind `stop`. -/
def Spills (stop : Nat) (out out' : Mem) : Prop := ∀ k, stop + 31 ≤ k → out' k = out k

/-- The copy to `stop` ran. -/
def Copied (mem : Mem) (op offset stop : Nat) (out : Mem) (r : Run Mem) : Prop :=
  ∃ out', r = .ok out' ∧ SpreadTo mem op offset out' stop ∧ Spills stop out out'

theorem Copied.after (h : Copied mem op offset stop out₁ r) (hkeep : ∀ k, stop + 31 ≤ k → out₁ k = out k) :
    Copied mem op offset stop out r := by
  obtain ⟨out', hrun, hcopy, hspill⟩ := h
  exact ⟨out', hrun, hcopy, fun k hk => (hspill k hk).trans (hkeep k hk)⟩

theorem copyMatchFar_ok (m : Nat) (hm : 16 ≤ m * offset) (hlimit : stop + 31 ≤ limit) (fuel dst : Nat)
    (out : Mem) (hfuel : stop - dst ≤ fuel) (hstop : dst < stop) (hdst : op - offset + m * offset ≤ dst)
    (hout : SpreadTo mem op offset out dst) :
    Copied mem op offset stop out (copyMatchFar limit stop fuel (dst - m * offset) dst out) := by
  induction fuel generalizing dst out with
  | zero => omega
  | succ fuel ih =>
    have hsrc : dst - m * offset + 16 = dst + 16 - m * offset := by omega
    have hnext : dst - m * offset + 32 = dst + 32 - m * offset := by omega
    rw [copyMatchFar, hsrc, hnext]
    obtain ⟨out₁, hrun₁, h₁, hkeep₁⟩ := copyBack_ok m hout hdst (by omega) (show dst + 16 ≤ limit by omega)
    rw [Nat.min_eq_left hm] at h₁
    obtain ⟨out₂, hrun₂, h₂, hkeep₂⟩ := copyBack_ok m h₁ (by omega) (by omega) (show dst + 16 + 16 ≤ limit by omega)
    rw [Nat.min_eq_left hm] at h₂
    have hkeep : ∀ k, stop + 31 ≤ k → out₂ k = out k := fun k hk =>
      (hkeep₂ k (by omega)).trans (hkeep₁ k (by omega))
    rw [← bind_assoc, hrun₁, run_bind_ok, ← bind_assoc, hrun₂]
    split_ifs with hend
    · exact ⟨out₂, rfl, fun k hk => h₂ k (by omega), hkeep⟩
    · exact (ih (dst + 32) out₂ (by omega) (by omega) (by omega) h₂).after hkeep

theorem copyMatchNear_ok (hoffset : 0 < offset) (hlimit : stop + 31 ≤ limit) (fuel m dst : Nat) (out : Mem)
    (hm : 0 < m) (hfuel : 16 - m * offset < fuel) (hstop : dst < stop) (hdst : op - offset + m * offset ≤ dst)
    (hout : SpreadTo mem op offset out dst) :
    Copied mem op offset stop out (copyMatchNear limit stop fuel (m * offset) dst out) := by
  induction fuel generalizing m dst out with
  | zero => omega
  | succ fuel ih =>
    have hpos : 0 < m * offset := Nat.mul_pos hm hoffset
    rw [copyMatchNear, ptrSub_ok (show m * offset ≤ dst by omega), run_bind_ok]
    split_ifs with hnear hend
    · obtain ⟨out₁, hrun₁, h₁, hkeep⟩ := copyBack_ok m hout hdst hpos (show dst + 16 ≤ limit by omega)
      rw [← bind_assoc, hrun₁]
      exact ⟨out₁, rfl, fun k hk => h₁ k (by omega), fun k hk => hkeep k (by omega)⟩
    · obtain ⟨out₁, hrun₁, h₁, hkeep⟩ := copyBack_ok m hout hdst hpos (show dst + 16 ≤ limit by omega)
      have hdouble : m * offset * 2 = (m * 2) * offset := by ring
      rw [Nat.min_eq_right (by omega)] at h₁
      rw [← bind_assoc, hrun₁, hdouble]
      exact (ih (m * 2) (dst + m * offset) out₁ (by omega) (by omega) (by omega) (by omega) h₁).after
        fun k hk => hkeep k (by omega)
    · exact copyMatchFar_ok m (by omega) hlimit (stop - dst) dst out (Nat.le_refl _) hstop hdst hout

/-- `copy_match` leaves the bytes that copying one byte at a time would leave. -/
theorem copyMatch_ok {limit op offset len : Nat} (out : Mem) (hpos : 0 < offset)
    (hop : offset ≤ op) (hlen : 0 < len) (hlimit : op + len + 31 ≤ limit) :
    ∃ out', copyMatch limit out op offset len = .ok out' ∧
      (∀ k, k < op + len → out' k = spread out op offset k) ∧ Spills (op + len) out out' := by
  simp only [copyMatch]
  rw [ptrSub_ok hop, run_bind_ok]
  have hstart : ∀ k, k < op → out k = spread out op offset k := fun k hk => (spread_of_lt hk).symm
  obtain rfl | hone := eq_or_ne offset 1
  · rw [load_ok out (show op - 1 + 1 ≤ limit by omega), run_bind_ok, store_ok _ _ (show op + len ≤ limit by omega)]
    refine ⟨_, rfl, fun k hk => ?_, fun k hk => write_ge _ _ (by omega)⟩
    rcases Nat.lt_or_ge k op with hlt | hge
    · rw [write_lt _ _ hlt, hstart k hlt]
    · have hk' : ¬ k < op - 1 := by omega
      rw [write_in _ _ hge hk]
      simp [spread, hk', Nat.mod_one]
  · simp only [hone]
    have := copyMatchNear_ok hpos hlimit 16 1 op out Nat.one_pos (by omega) (by omega) (by omega) hstart
    rwa [Nat.one_mul] at this

/-- The two blind copies of the shortcut, for offsets of at least 16. -/
theorem copyTwice_ok {limit op offset : Nat} (out : Mem) (hfar : 16 ≤ offset) (hop : offset ≤ op)
    (hlimit : op + 32 ≤ limit) :
    ∃ out₁ out₂, copyNonoverlapping limit out (op - offset) op 16 = .ok out₁ ∧
      copyNonoverlapping limit out₁ (op - offset + 16) (op + 16) 16 = .ok out₂ ∧
      (∀ k, k < op + 32 → out₂ k = spread out op offset k) ∧
      ∀ k, op + 32 ≤ k → out₂ k = out k := by
  have hsrc : op - offset + 16 = op + 16 - 1 * offset := by omega
  have hstart : SpreadTo out op offset out op := fun k hk => (spread_of_lt hk).symm
  obtain ⟨out₁, hrun₁, h₁, hkeep₁⟩ := copyBack_ok 1 hstart (by omega) (by omega) (show op + 16 ≤ limit by omega)
  rw [Nat.min_eq_left (by omega)] at h₁
  obtain ⟨out₂, hrun₂, h₂, hkeep₂⟩ := copyBack_ok 1 h₁ (by omega) (by omega) (show op + 16 + 16 ≤ limit by omega)
  refine ⟨out₁, out₂, ?_, ?_, fun k hk => h₂ k (by omega), fun k hk => ?_⟩
  · rw [copyNonoverlapping_eq out (by omega), ← hrun₁, Nat.one_mul]
  · rw [copyNonoverlapping_eq out₁ (by omega), ← hrun₂, hsrc]
  · rw [hkeep₂ k (by omega), hkeep₁ k (by omega)]

/-- `wide_copy` copies the literal run and leaves everything before it. -/
theorem wideCopy_ok {input : List UInt8} {limit stop : Nat} (hlimit : stop + 31 ≤ limit)
    (fuel src dst : Nat) (out : Mem) (hfuel : stop - dst ≤ fuel) (hstop : dst < stop)
    (hinput : src + (stop - dst) + 31 ≤ input.length) :
    ∃ out', wideCopy input limit stop fuel src dst out = .ok out' ∧ (∀ k, k < dst → out' k = out k) ∧
      (∀ k, dst ≤ k → k < stop → out' k = input.getD (src + (k - dst)) 0) ∧ Spills stop out out' := by
  induction fuel generalizing src dst out with
  | zero => omega
  | succ fuel ih =>
    simp only [wideCopy]
    rw [loadInput_ok (show src + 32 ≤ input.length by omega), run_bind_ok,
      store_ok _ _ (show dst + 32 ≤ limit by omega)]
    by_cases hend : stop ≤ dst + 32
    · refine ⟨_, by simp only [hend]; rfl, fun k hk => write_lt _ _ hk, fun k h₁ h₂ => ?_,
        fun k hk => write_ge _ _ (by omega)⟩
      rw [write_in _ _ h₁ (by omega)]
    · simp only [hend]
      obtain ⟨out', hrun, hlow, hcopy, hspill⟩ := ih (src + 32) (dst + 32)
        (write out dst 32 fun j => input.getD (src + j) 0) (by omega) (by omega) (by omega)
      refine ⟨out', hrun, fun k hk => ?_, fun k h₁ h₂ => ?_, fun k hk => ?_⟩
      · rw [hlow k (by omega), write_lt _ _ hk]
      · rcases Nat.lt_or_ge k (dst + 32) with hlt | hge
        · rw [hlow k hlt, write_in _ _ h₁ hlt]
        · rw [hcopy k hge h₂]
          congr 1
          omega
      · rw [hspill k hk, write_ge _ _ (by omega)]

end Lz4dec
