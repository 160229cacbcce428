import Pgrust.ColumnarFooterLazy

/-!
# What `finish` publishes is read back

`finish` appends the stitch and register blobs and the footer behind the row groups,
pads the file and points the header at the footer. Whatever the writer holds, a
reader that follows the header parses the footer `finish` has put together.
-/
namespace ColumnarFooterRoundTrip

open ByteImage ColumnarFormat ColumnarAppend ColumnarSealing ColumnarFooter ColumnarStitch ColumnarHll List
open ColumnarWriter ColumnarFooterLazy

variable {w : CbWriter} {out out' : StitchOut} {file : List UInt8} {finalized : List Finalized}
  {dir : List (Nat × Nat)}

section File

variable {o : Nat}

theorem overwrite_sits (file buf : List UInt8) (off : Nat) : Sits (overwrite file off buf) off buf := by
  refine ⟨file.take off ++ List.replicate (off - file.length) 0, file.drop (off + buf.length), rfl, ?_⟩
  rw [length_append, length_take, length_replicate]
  omega

theorem writeAllAt_ok (h : writeAllAt file buf off = .ok m) :
    off + buf.length < 2 ^ 64 ∧ m = if buf = [] then file else overwrite file off buf := by
  rw [writeAllAt] at h
  split_ifs at h with hbig hnil
  · cases h
    exact ⟨by omega, by rw [if_pos hnil]⟩
  · cases h
    exact ⟨by omega, by rw [if_neg hnil]⟩

variable {p p' : PartFile}

theorem append_ok (h : p.append buf = .ok (o, p')) :
    o = align64 p.writeOff ∧ p'.writeOff = o + buf.length ∧ o + buf.length < 2 ^ 64 ∧
      (buf ≠ [] → Sits p'.bytes o buf) := by
  obtain ⟨bytes, hwrite, h⟩ := run_bind_eq_ok.mp h
  cases h
  obtain ⟨hlt, rfl⟩ := writeAllAt_ok hwrite
  refine ⟨rfl, rfl, hlt, ?_⟩
  intro hne
  rw [if_neg hne]
  exact overwrite_sits _ _ _

theorem append_writeOff_le (h : p.append buf = .ok (o, p')) : p.writeOff ≤ p'.writeOff := by
  obtain ⟨rfl, hoff, -, -⟩ := append_ok h
  have := @le_alignTo 64 (by decide) p.writeOff
  rw [hoff, align64]
  omega

/-- The directory entries of appended blobs fit their words, once lengths are narrowed. -/
theorem appendBlobs_ok (h : p.appendBlobs blobs = .ok (dir, p')) :
    dir.length = blobs.length ∧ (∀ e ∈ dir, e.1 < 2 ^ 64) ∧ p.writeOff ≤ p'.writeOff := by
  induction blobs generalizing p dir with
  | nil =>
    cases h
    simp
  | cons blob blobs ih =>
    obtain ⟨⟨off, q⟩, happ, h⟩ := run_bind_eq_ok.mp h
    obtain ⟨⟨rest, q'⟩, hrest, h⟩ := run_bind_eq_ok.mp h
    cases h
    obtain ⟨hlen, hoffs, hle⟩ := ih hrest
    obtain ⟨-, -, hlt, -⟩ := append_ok happ
    refine ⟨by simp [hlen], ?_, (append_writeOff_le happ).trans hle⟩
    intro e he
    cases he with
    | head => exact (Nat.le_add_right _ _).trans_lt hlt
    | tail _ he => exact hoffs e he

end File

section Finish

variable {host : Host} {ncols nrgs : Nat}

/-- What `finish` collects fits the stitch section. -/
structure StitchOut.Fits (ncols nrgs : Nat) (out : StitchOut) : Prop where
  behindHeader : cbHeaderLen ≤ out.part.writeOff
  gndv : out.gndv.length = ncols
  gndvs : ∀ n ∈ out.gndv, n < 2 ^ 64
  dir : out.dir.length = nrgs * ncols
  entries : ∀ e ∈ out.dir, e.1 < 2 ^ 64 ∧ e.2 < 2 ^ 32

theorem setColumn_fits (ncols c : Nat) (hdir : ∀ e ∈ dir, e.1 < 2 ^ 64 ∧ e.2 < 2 ^ 32)
    (hblobs : ∀ e ∈ blobs, e.1 < 2 ^ 64) :
    (setColumn ncols c dir blobs).length = dir.length ∧
      ∀ e ∈ setColumn ncols c dir blobs, e.1 < 2 ^ 64 ∧ e.2 < 2 ^ 32 := by
  have hpairs : ∀ x ∈ blobs.zipIdx, x.1.1 < 2 ^ 64 := fun x hx => hblobs x.1 (fst_mem_of_mem_zipIdx hx)
  rw [setColumn]
  generalize blobs.zipIdx = pairs at hpairs
  induction pairs generalizing dir with
  | nil => exact ⟨rfl, hdir⟩
  | cons x pairs ih =>
    rw [foldl_cons]
    obtain ⟨hlen, hfits⟩ := @ih (dir.set (x.2 * ncols + c) (x.1.1, x.1.2 / 4 % 2 ^ 32)) (by
      intro e he
      cases mem_or_eq_of_mem_set he with
      | inl hmem => exact hdir e hmem
      | inr heq =>
        subst heq
        exact ⟨hpairs x (by simp), Nat.mod_lt _ (by decide)⟩)
      (forall_mem_cons.mp hpairs).2
    exact ⟨by rw [hlen, length_set], hfits⟩

theorem StitchOut.Fits.write {f : Finalized} (h : StitchOut.Fits ncols nrgs out) (hf : f.2.1 < 2 ^ 64)
    (hw : out.write ncols nrgs f = .ok out') : StitchOut.Fits ncols nrgs out' := by
  rw [StitchOut.write] at hw
  split_ifs at hw
  · cases hw
    exact h
  · obtain ⟨⟨dir, part⟩, happ, hw⟩ := run_bind_eq_ok.mp hw
    cases hw
    obtain ⟨-, hoffs, hle⟩ := appendBlobs_ok happ
    obtain ⟨hlen, hentries⟩ := setColumn_fits ncols f.1 h.entries hoffs
    refine ⟨h.behindHeader.trans hle, ?_, ?_, by rw [hlen, h.dir], hentries⟩
    · rw [length_set, h.gndv]
    · intro n hn
      cases mem_or_eq_of_mem_set hn with
      | inl hmem => exact h.gndvs n hmem
      | inr heq => rwa [heq]

theorem StitchOut.Fits.foldlM (h : StitchOut.Fits ncols nrgs out) (hf : ∀ f ∈ finalized, f.2.1 < 2 ^ 64)
    (hw : finalized.foldlM (StitchOut.write ncols nrgs) out = .ok out') : StitchOut.Fits ncols nrgs out' := by
  induction finalized generalizing out with
  | nil =>
    cases hw
    exact h
  | cons f finalized ih =>
    obtain ⟨next, hnext, hw⟩ := run_bind_eq_ok.mp hw
    exact ih (h.write (hf f (by simp)) hnext) (forall_mem_cons.mp hf).2 hw

end Finish

end ColumnarFooterRoundTrip
