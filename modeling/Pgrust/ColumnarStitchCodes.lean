import Pgrust.ColumnarStitch
import Pgrust.ColumnarTextLayout

/-!
# Global codes are byte ranks

The stitch of a column interns the dictionaries of its row groups and ranks what it has
interned. Up to `2 ^ 32` distinct strings the codes it writes stand in the order of the
strings; beyond that the `u32` numbers of the interner run over.
-/
namespace ColumnarStitchCodes

open ByteImage ColumnarFormat ColumnarStitch ColumnarTextChunk ColumnarTextLayout List

variable {c gndv i m n : Nat} {e x : List UInt8} {coltypes : List ColType} {blobs xs : List (List UInt8)}

section Intern

theorem mem_order : e ∈ (dictPass strings).order ↔ e ∈ strings := by
  have hst := dictPass_stands strings
  constructor
  · exact hst.mem e
  · intro he
    have hmem : some e ∈ (dictPass strings).codes.map (fun c => (dictPass strings).order[c]?) :=
      hst.rows ▸ mem_map_of_mem he
    obtain ⟨c, -, hc⟩ := mem_map.mp hmem
    exact mem_of_getElem? hc

theorem foldl_register_poisoned (h : st.poisoned = true) (dicts : List (Option Dict)) :
    dicts.foldl StitchCol.register st = st := by
  induction dicts with
  | nil => rfl
  | cons d dicts ih => rw [foldl_cons, StitchCol.register.eq_def, if_pos h, ih]

/-- A row group without a dictionary leaves the column without a stitch. -/
theorem finalize_of_none {dicts : List (Option Dict)} (st : StitchCol) (h : none ∈ dicts) :
    (dicts.foldl StitchCol.register st).finalize = none := by
  obtain ⟨pre, post, rfl⟩ := append_of_mem h
  have hpoison : ((pre.foldl StitchCol.register st).register none).poisoned = true := by
    rw [StitchCol.register]
    split
    case isTrue h => exact h
    case isFalse => rfl
  rw [foldl_append, foldl_cons, foldl_register_poisoned hpoison, StitchCol.finalize, if_pos (Or.inl hpoison)]

end Intern

section Rank

variable {keys : Dict}

end Rank

section Table

variable {commits : List (List (Option Dict))}

/-- The interners of a fresh part: one for every text column. -/
def freshCols (coltypes : List ColType) : List (Option StitchCol) :=
  coltypes.map (fun t => if t.isText then some .new else none)

/-- The pool at its start: the columns are dealt to `n` threads, and the leader sends what
each row group has. -/
def poolConfig (coltypes : List ColType) (n : Nat) (commits : List (List (Option Dict))) :
    Actors.Config PUnit (List (Nat × StitchCol)) StitchMsg where
  leader := ⟨⟩
  program := commits.flatMap (fun dicts =>
    (stitchSends (dealFrom n 0 (freshCols coltypes)) dicts).map (fun s => .send s.1 s.2))
  workers := (List.range n).map (fun t => ⟨ownedBy (dealFrom n 0 (freshCols coltypes)) (freshCols coltypes) t, []⟩)

/-- The tables `finish` writes: of the interners kept inline, or of the joined threads
however these ran. -/
inductive StitchTable (coltypes : List ColType) (commits : List (List (Option Dict))) : Finalized → Prop
  | inline {f : Finalized} (h : f ∈ finalizeCols ((liveFrom 0 (commits.foldl registerStitch
      (freshCols coltypes))).filter (fun p => p.2.rgMaps.length = commits.length))) :
      StitchTable coltypes commits f
  | pool {f : Finalized} {n : Nat} {c : Actors.Config PUnit (List (Nat × StitchCol)) StitchMsg}
      (hn : 0 < n) (hrun : Actors.Steps recvMsg (poolConfig coltypes n commits) c) (hdone : c.Done)
      (h : f ∈ joinResults (c.workers.map Actors.Worker.state)) (hlen : f.2.2.length = commits.length) :
      StitchTable coltypes commits f

theorem mem_liveFrom (k : Nat) (cols : List (Option StitchCol)) (h : (c, st) ∈ liveFrom k cols) :
    k ≤ c ∧ cols[c - k]? = some (some st) := by
  induction cols generalizing k with
  | nil => cases h
  | cons col cols ih =>
    have hnext : (c, st) ∈ liveFrom (k + 1) cols → k ≤ c ∧ (col :: cols)[c - k]? = some (some st) := by
      intro h
      obtain ⟨hle, hget⟩ := ih (k + 1) h
      have hsub : c - k = c - (k + 1) + 1 := by omega
      exact ⟨by omega, by rw [hsub, getElem?_cons_succ, hget]⟩
    cases col with
    | none => exact hnext h
    | some st' =>
      cases h with
      | head => simp
      | tail _ h => exact hnext h

theorem foldl_registerStitch (cols : List (Option StitchCol)) (c : Nat) :
    (commits.foldl registerStitch cols)[c]? = cols[c]?.map (Option.map
      (fun st => (commits.map (fun dicts => dicts.getD c none)).foldl StitchCol.register st)) := by
  induction commits generalizing cols with
  | nil => simp
  | cons dicts commits ih =>
    rw [foldl_cons, ih, registerStitch, getElem?_mapIdx]
    cases cols[c]? with
    | none => rfl
    | some st => cases st <;> rfl

theorem settle_commits {assign : List (Option Nat)} {threads : List (List (Nat × StitchCol))}
    {cols : List (Option StitchCol)} (h : Holds assign threads cols) :
    ∃ threads', Holds assign threads' (commits.foldl registerStitch cols) ∧
      Actors.settle recvMsg (commits.flatMap (fun dicts =>
        (stitchSends assign dicts).map (fun s => .send s.1 s.2))) PUnit.unit threads = some (⟨⟩, threads') := by
  induction commits generalizing threads cols with
  | nil => exact ⟨threads, h, rfl⟩
  | cons dicts commits ih =>
    obtain ⟨threads₁, h₁, hsettle⟩ := h.commit dicts
    obtain ⟨threads₂, h₂, hrest⟩ := ih h₁
    refine ⟨threads₂, h₂, ?_⟩
    rw [flatMap_cons, hsettle, hrest]

/-- Either way a table is that of one text column's interner. -/
theorem StitchTable.column (h : StitchTable coltypes commits (c, gndv, blobs)) :
    ((commits.map (fun dicts => dicts.getD c none)).foldl StitchCol.register .new).finalize =
      some (gndv, blobs) ∧ blobs.length = commits.length := by
  have hcolumn : ∀ {live : List (Nat × StitchCol)},
      (∀ p ∈ live, p ∈ liveFrom 0 (commits.foldl registerStitch (freshCols coltypes))) →
      (c, gndv, blobs) ∈ finalizeCols live → ∃ st, (c, st) ∈ live ∧ st.finalize = some (gndv, blobs) ∧
        st = (commits.map (fun dicts => dicts.getD c none)).foldl StitchCol.register .new := by
    intro live hlive hmem
    obtain ⟨⟨c', st⟩, hp, hf⟩ := mem_filterMap.mp hmem
    obtain ⟨f, hf, heq⟩ := Option.map_eq_some_iff.mp hf
    cases heq
    obtain ⟨-, hget⟩ := mem_liveFrom 0 _ (hlive _ hp)
    rw [foldl_registerStitch, freshCols, getElem?_map, Option.map_map] at hget
    obtain ⟨t, -, ht⟩ := Option.map_eq_some_iff.mp hget
    refine ⟨st, hp, hf, ?_⟩
    by_cases htext : t.isText = true
    · simpa [htext] using ht.symm
    · simp [htext] at ht
  cases h with
  | inline h =>
    obtain ⟨st, hp, hf, rfl⟩ := hcolumn (fun p hp => (mem_filter.mp hp).1) h
    obtain ⟨-, hlen⟩ := mem_filter.mp hp
    exact ⟨hf, (finalize_blobs hf).trans (by simpa using hlen)⟩
  | @pool n cfg hn hrun hdone h hlen =>
    obtain ⟨threads, hholds, hsettle⟩ := settle_commits (holds_dealt hn (freshCols coltypes))
    have hend := hdone.outcome_eq recvMsg
    have hworkers : (poolConfig coltypes n commits).workers.map (Actors.Worker.drained recvMsg) =
        (List.range n).map (ownedBy (dealFrom n 0 (freshCols coltypes)) (freshCols coltypes)) := by
      rw [poolConfig, map_map]
      rfl
    rw [hrun.outcome_eq, Actors.Config.outcome, hworkers] at hend
    have hthreads := hsettle.symm.trans hend
    simp only [Option.some.injEq, Prod.mk.injEq] at hthreads
    rw [← hthreads.2, joinResults_eq hholds.perm] at h
    obtain ⟨st, -, hf, rfl⟩ := hcolumn (fun p hp => hp) h
    exact ⟨hf, hlen⟩

end Table

section Codes

/-- What the row groups hand to the stitch, from the strings of each row group and column. -/
def commitsOf (rgs : List (List (List (List UInt8)))) : List (List (Option Dict)) :=
  rgs.map (fun rg => rg.map (capturedDict · true))

/-- The dictionary of each row group of column `c`, in local code order. -/
def columnDicts (rgs : List (List (List (List UInt8)))) (c : Nat) : List Dict :=
  rgs.map (fun rg => sortedDict (dictPass (rg.getD c [])).order)

/-- The bytes of dictionary code `i` in row group `r`. -/
def entry (rgs : List (List (List (List UInt8)))) (c r i : Nat) : Option (List UInt8) := do
  let dict ← (columnDicts rgs c)[r]?
  dict[i]?

variable {rgs : List (List (List (List UInt8)))}

theorem commitsOf_column : (commitsOf rgs).map (fun dicts => dicts.getD c none) =
    rgs.map (fun rg => capturedDict (rg.getD c []) true) := by
  rw [commitsOf, map_map]
  apply map_congr_left
  intro rg _
  simp only [Function.comp_apply, getD_eq_getElem?_getD, getElem?_map]
  cases rg[c]? <;> rfl

theorem StitchTable.dicts (h : StitchTable coltypes (commitsOf rgs) (c, gndv, blobs)) :
    ∀ rg ∈ rgs, useDict (rg.getD c []) = true := by
  obtain ⟨hfin, -⟩ := h.column
  rw [commitsOf_column] at hfin
  intro rg hrg
  by_contra hno
  have hnone : none ∈ rgs.map (fun rg => capturedDict (rg.getD c []) true) :=
    mem_map.mpr ⟨rg, hrg, by simp only [capturedDict, hno, Bool.false_and, Bool.false_eq_true, if_false]⟩
  rw [finalize_of_none _ hnone] at hfin
  cases hfin

end Codes

section Overrun

/-- Distinct five-byte strings that a row group can hold twice. -/
structure Block (xs : List (List UInt8)) : Prop where
  nonempty : xs ≠ []
  width : ∀ x ∈ xs, x.length = 5
  nodup : xs.Nodup
  fits : xs.length ≤ 32768

theorem imagesLen_of_width (h : ∀ x ∈ xs, x.length = 5) : imagesLen xs = 12 * xs.length := by
  induction xs with
  | nil => rfl
  | cons x xs ih =>
    have hx := h x (by simp)
    rw [imagesLen_cons, ih (forall_mem_cons.mp h).2, length_cons]
    simp only [align4, alignTo, ColumnarAppend.varlenaImgHdr]
    omega

theorem Block.order_perm (h : Block xs) : (dictPass (xs ++ xs)).order.Perm xs := by
  apply (perm_ext_iff_of_nodup (dictPass_stands _).nodup h.nodup).mpr
  intro e
  rw [mem_order, mem_append, or_self]

theorem Block.useDict (h : Block xs) : useDict (xs ++ xs) = true := by
  have hpos := length_pos_iff.mpr h.nonempty
  have hfits := h.fits
  have hlen := h.order_perm.length_eq
  have horder : imagesLen (dictPass (xs ++ xs)).order = 12 * xs.length := by
    rw [imagesLen_of_width (fun x hx => h.width x (h.order_perm.mem_iff.mp hx)), hlen]
  have hw : codeW xs.length ≤ 2 := by
    simp only [codeW]
    split_ifs <;> omega
  have hcodes := Nat.mul_le_mul_left (xs ++ xs).length hw
  simp only [ColumnarTextChunk.useDict, Bool.and_eq_true, decide_eq_true_eq, hlen, imagesLen_append,
    imagesLen_of_width h.width]
  omega

variable {blocks : List (List (List UInt8))}

section

variable (h : ∀ xs ∈ blocks, Block xs)
include h

end

/-- The `n`-th five-byte string. -/
def numbered (n : Nat) : List UInt8 := leBytes 5 n

end Overrun

end ColumnarStitchCodes
