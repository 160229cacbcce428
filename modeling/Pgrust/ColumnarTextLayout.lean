import Pgrust.ColumnarTextChunk

/-!
# What a text chunk is laid out from

The builder gives back the strings it took while their total fits `u32`; the
dictionary and its sorted codes give back the strings; image offsets point at the
images; frame cuts tile the dictionary blob.
-/
namespace ColumnarTextLayout

open ByteImage ColumnarFormat ColumnarCodec ColumnarIntChunk ColumnarAppend ColumnarTextChunk List

/-- Every string fits a varlena. -/
def Sized (strings : List (List UInt8)) : Prop := ∀ s ∈ strings, s.length + 4 < 2 ^ 30

variable {strings : List (List UInt8)} {c : Nat}

section Builder

/-- The ranges a builder whose blob has `k` bytes records for further strings. -/
def rangesFrom : Nat → List (List UInt8) → List (Nat × Nat)
  | _, [] => []
  | k, s :: strings => (k % 2 ^ 32, s.length % 2 ^ 32) :: rangesFrom (k + s.length) strings

theorem foldl_push (tb : TextBuilder) (strings : List (List UInt8)) :
    strings.foldl .push tb = ⟨tb.offs ++ rangesFrom tb.blob.length strings, tb.blob ++ strings.flatten⟩ := by
  induction strings generalizing tb with
  | nil => simp [rangesFrom]
  | cons s strings ih =>
    rw [foldl_cons, ih]
    simp [TextBuilder.push, rangesFrom]

theorem textBuilder_of (strings : List (List UInt8)) :
    TextBuilder.of strings = ⟨rangesFrom 0 strings, strings.flatten⟩ := by
  rw [TextBuilder.of, foldl_push]
  rfl

theorem textSlice_middle (pre s post : List UInt8) (h : pre.length + s.length < 2 ^ 32) :
    textSlice ⟨offs, pre ++ (s ++ post)⟩ (pre.length % 2 ^ 32, s.length % 2 ^ 32) = some s := by
  have hpre : pre.length % 2 ^ 32 = pre.length := Nat.mod_eq_of_lt (by omega)
  have hs : s.length % 2 ^ 32 = s.length := Nat.mod_eq_of_lt (by omega)
  rw [textSlice, hpre, hs, if_pos h, ← append_assoc]
  exact (sits_middle pre s post).slice

theorem textSlice_overflow (hk : k < 2 ^ 32) (hn : n < 2 ^ 32) (h : 2 ^ 32 ≤ k + n) :
    textSlice tb (k % 2 ^ 32, n % 2 ^ 32) = none := by
  rw [textSlice, if_neg (by omega)]

/-- The dictionary pass slices the strings back as long as no end of a range passes
`u32`; the first one that does stops it. -/
theorem mapM_textSlice {offs : List (Nat × Nat)} (pre : List UInt8) {strings : List (List UInt8)}
    (hs : Sized strings) (hpre : pre.length < 2 ^ 32) :
    (rangesFrom pre.length strings).mapM (textSlice ⟨offs, pre ++ strings.flatten⟩) =
      if pre.length + strings.flatten.length < 2 ^ 32 then some strings else none := by
  induction strings generalizing pre with
  | nil =>
    rw [flatten_nil, length_nil, Nat.add_zero, if_pos hpre]
    rfl
  | cons s strings ih =>
    obtain ⟨hsize, hrest⟩ := forall_mem_cons.mp hs
    rw [rangesFrom, mapM_cons, flatten_cons, length_append]
    rcases Nat.lt_or_ge (pre.length + s.length) (2 ^ 32) with hlt | hge
    · have hrec := ih (pre ++ s) hrest (by rw [length_append]; exact hlt)
      rw [length_append, append_assoc] at hrec
      rw [textSlice_middle pre s _ hlt, hrec, Nat.add_assoc]
      split <;> rfl
    · rw [textSlice_overflow hpre (by omega) hge, if_neg (by omega)]
      rfl

theorem strings_of_builder (hs : Sized strings) :
    (TextBuilder.of strings).offs.mapM (textSlice (TextBuilder.of strings)) =
      if strings.flatten.length < 2 ^ 32 then some strings else none := by
  have h := @mapM_textSlice (rangesFrom 0 strings) [] strings hs (by decide)
  rw [textBuilder_of]
  simpa using h

end Builder

section Dictionary

/-- The dictionary stands for the rows seen so far. -/
structure DictPass.Stands (d : DictPass) (seen : List (List UInt8)) : Prop where
  nodup : d.order.Nodup
  mem : ∀ s ∈ d.order, s ∈ seen
  rows : d.codes.map (fun c => d.order[c]?) = seen.map some

theorem stands_add (h : DictPass.Stands d seen) (s : List UInt8) : DictPass.Stands (d.add s) (seen ++ [s]) := by
  by_cases hs : s ∈ d.order
  · have hget : d.order[d.order.idxOf s]? = some s := by
      rw [getElem?_eq_getElem (idxOf_lt_length_of_mem hs), getElem_idxOf]
    rw [DictPass.add, if_pos hs]
    constructor
    · exact h.nodup
    · intro x hx
      exact mem_append_left _ (h.mem x hx)
    · simp [h.rows, hget]
  · rw [DictPass.add, if_neg hs]
    constructor
    · exact nodup_append.mpr ⟨h.nodup, nodup_singleton s, by
        intro x hx y hy hxy
        rw [mem_singleton.mp hy] at hxy
        exact hs (hxy ▸ hx)⟩
    · intro x hx
      rcases mem_append.mp hx with hx | hx
      · exact mem_append_left _ (h.mem x hx)
      · exact mem_append_right _ hx
    · have hold : d.codes.map (fun c => (d.order ++ [s])[c]?) = d.codes.map (fun c => d.order[c]?) := by
        apply map_congr_left
        intro c hc
        have hmem : d.order[c]? ∈ seen.map some := h.rows ▸ mem_map_of_mem hc
        obtain ⟨x, -, hx⟩ := mem_map.mp hmem
        obtain ⟨hlt, -⟩ := List.getElem?_eq_some_iff.mp hx.symm
        exact getElem?_append_left hlt
      simp only [map_append, hold, h.rows]
      simp

theorem stands_foldl {d : DictPass} {seen : List (List UInt8)} (h : DictPass.Stands d seen)
    (strings) : DictPass.Stands (strings.foldl .add d) (seen ++ strings) := by
  induction strings generalizing d seen with
  | nil => simpa using h
  | cons s strings ih =>
    have := ih (stands_add h s)
    rwa [append_assoc] at this

theorem dictPass_stands (strings) : DictPass.Stands (dictPass strings) strings :=
  @stands_foldl ⟨[], []⟩ [] ⟨nodup_nil, by simp, rfl⟩ strings

theorem map_getD_range {α : Type} (xs : List α) (d : α) :
    (List.range xs.length).map (fun i => xs.getD i d) = xs := by
  apply ext_getElem
  · simp
  · intro i h₁ h₂
    rw [getElem_map, getElem_range, getD_eq_getElem _ _ h₂]

theorem dictPerm_perm (order : List (List UInt8)) :
    (dictPerm order).Perm (List.range order.length) := mergeSort_perm _ _

theorem sortedDict_perm (order : List (List UInt8)) : (sortedDict order).Perm order := by
  have h := (dictPerm_perm order).map (fun o => order.getD o [])
  rwa [map_getD_range] at h

theorem foldl_set_getD {perm : List Nat} (hnodup : perm.Nodup) (k : Nat) (remap : List Nat)
    (hlt : ∀ c ∈ perm, c < remap.length) (c : Nat) :
    ((perm.zipIdx k).foldl (fun remap p => remap.set p.1 p.2) remap).getD c 0 =
      if c ∈ perm then k + perm.idxOf c else remap.getD c 0 := by
  induction perm generalizing k remap with
  | nil => simp
  | cons x perm ih =>
    obtain ⟨hx, hnodup⟩ := nodup_cons.mp hnodup
    have hxlt := hlt x (by simp)
    rw [zipIdx_cons, foldl_cons, ih hnodup (k + 1) _ (by
      intro c hc
      rw [length_set]
      exact hlt c (mem_cons_of_mem _ hc))]
    obtain rfl | hcx := eq_or_ne c x
    · rw [if_neg hx, if_pos (by simp), idxOf_cons_self, getD_eq_getElem?_getD, getElem?_set_self hxlt]
      rfl
    · by_cases hc : c ∈ perm
      · rw [if_pos hc, if_pos (mem_cons_of_mem _ hc), idxOf_cons_ne _ (Ne.symm hcx)]
        omega
      · rw [if_neg hc, if_neg (by simp [hcx, hc]), getD_eq_getElem?_getD,
          getElem?_set_ne (Ne.symm hcx), getD_eq_getElem?_getD]

/-- The remapped code of an entry is its place in the permutation. -/
theorem dictRemap_getD {order : List (List UInt8)} (hc : c < order.length) :
    (dictRemap (dictPerm order)).getD c 0 = (dictPerm order).idxOf c := by
  have hperm := dictPerm_perm order
  have hmem : ∀ x, x ∈ dictPerm order ↔ x < order.length := by
    intro x
    rw [hperm.mem_iff, mem_range]
  have hlen : (dictPerm order).length = order.length := by
    rw [hperm.length_eq, length_range]
  rw [dictRemap, foldl_set_getD (hperm.nodup_iff.mpr nodup_range) 0 _ (by
    intro x hx
    rw [length_replicate, hlen]
    exact (hmem x).mp hx), if_pos ((hmem c).mpr hc), Nat.zero_add]

theorem sortedDict_remap (hc : c < order.length) :
    (sortedDict order)[(dictRemap (dictPerm order)).getD c 0]? = order[c]? := by
  have hmem : c ∈ dictPerm order := by
    rw [(dictPerm_perm order).mem_iff, mem_range]
    exact hc
  have hlt := idxOf_lt_length_of_mem hmem
  rw [dictRemap_getD hc, sortedDict, getElem?_map, getElem?_eq_getElem hlt,
    getElem_idxOf, Option.map_some, getD_eq_getElem _ _ hc, getElem?_eq_getElem hc]

/-- Sorting and remapping keep every row's string. -/
theorem sortedCodes_rows (strings) :
    (sortedCodes (dictPass strings)).map (fun c => (sortedDict (dictPass strings).order)[c]?) =
      strings.map some := by
  have hst := dictPass_stands strings
  rw [sortedCodes, map_map, ← hst.rows]
  apply map_congr_left
  intro c hc
  have hmem : (dictPass strings).order[c]? ∈ strings.map some := hst.rows ▸ mem_map_of_mem hc
  obtain ⟨x, -, hx⟩ := mem_map.mp hmem
  obtain ⟨hlt, -⟩ := List.getElem?_eq_some_iff.mp hx.symm
  exact sortedDict_remap hlt

theorem sortedCodes_lt (hc : c ∈ sortedCodes (dictPass strings)) : c < (dictPass strings).order.length := by
  have hmem : (sortedDict (dictPass strings).order)[c]? ∈ strings.map some :=
    sortedCodes_rows strings ▸ mem_map_of_mem hc
  obtain ⟨x, -, hx⟩ := mem_map.mp hmem
  obtain ⟨hlt, -⟩ := List.getElem?_eq_some_iff.mp hx.symm
  rwa [(sortedDict_perm _).length_eq] at hlt

theorem sortedDict_sized (hs : Sized strings) : Sized (sortedDict (dictPass strings).order) := by
  intro s hmem
  exact hs s ((dictPass_stands strings).mem s ((sortedDict_perm _).mem_iff.mp hmem))

end Dictionary

section Images

/-- The offsets of consecutive images from `off` on. -/
def imageOffs : Nat → List (List UInt8) → List Nat
  | _, [] => []
  | off, s :: strings => off :: imageOffs (off + align4 (varlenaImgHdr + s.length)) strings

/-- The images of strings, one behind the other. -/
def images (strings : List (List UInt8)) : List UInt8 := (strings.map varlenaImage).flatten

@[simp] theorem images_length (strings) : (images strings).length = imagesLen strings := by
  rw [images, length_flatten, map_map]
  congr 1
  apply map_congr_left
  intro s _
  exact varlenaImage_length s

theorem foldl_images (strings) : strings.foldl pushVarlenaImage [] = images strings := by
  rw [foldl_pushVarlenaImage (by simp), nil_append, images]

theorem imagesLen_cons (s : List UInt8) (strings) :
    imagesLen (s :: strings) = align4 (varlenaImgHdr + s.length) + imagesLen strings := by
  simp [imagesLen]

theorem image_bounds (s : List UInt8) :
    4 ≤ align4 (varlenaImgHdr + s.length) ∧ s.length < align4 (varlenaImgHdr + s.length) ∧
      align4 (varlenaImgHdr + s.length) ≤ s.length + 7 := by
  have h₁ := @le_alignTo 4 (by decide) (varlenaImgHdr + s.length)
  have h₂ := @alignTo_lt 4 (by decide) (varlenaImgHdr + s.length)
  simp only [align4, varlenaImgHdr] at h₁ h₂ ⊢
  omega

theorem length_le_imagesLen (strings) : strings.length ≤ imagesLen strings := by
  induction strings with
  | nil => exact Nat.zero_le _
  | cons s strings =>
    have hb := image_bounds s
    have hlen := imagesLen_cons s strings
    rw [length_cons]
    omega

@[simp] theorem imageOffs_length (off : Nat) (strings) : (imageOffs off strings).length = strings.length := by
  induction strings generalizing off with
  | nil => rfl
  | cons s strings ih => rw [imageOffs, length_cons, length_cons, ih]

/-- The offset table exists exactly when the images end below `2 ^ 32`. -/
theorem offTable_eq {strings : List (List UInt8)} (hs : Sized strings) {off : Nat}
    (hoff : off < 2 ^ 32) : offTable off strings =
      if off + imagesLen strings < 2 ^ 32 then some (imageOffs off strings) else none := by
  induction strings generalizing off with
  | nil =>
    rw [if_pos (by simpa [imagesLen] using hoff)]
    rfl
  | cons s strings ih =>
    obtain ⟨hsize, hrest⟩ := forall_mem_cons.mp hs
    have hb := image_bounds s
    have hlen := imagesLen_cons s strings
    have hmod : align4 (varlenaImgHdr + s.length) % 2 ^ 32 = align4 (varlenaImgHdr + s.length) :=
      Nat.mod_eq_of_lt (by omega)
    simp only [offTable, hmod, hlen, ← Nat.add_assoc]
    rcases Nat.lt_or_ge (off + align4 (varlenaImgHdr + s.length)) (2 ^ 32) with hlt | hge
    · rw [if_pos hlt, ih hrest hlt]
      split <;> rfl
    · rw [if_neg (by omega), if_neg (by omega)]

@[simp] theorem relOffs_length (off : Nat) (strings) : (relOffs off strings).length = strings.length := by
  induction strings generalizing off with
  | nil => rfl
  | cons s strings ih => rw [relOffs, length_cons, length_cons, ih]

theorem relOffs_lt (off : Nat) (strings) : ∀ o ∈ relOffs off strings, o < 2 ^ 32 := by
  induction strings generalizing off with
  | nil => simp [relOffs]
  | cons s strings ih =>
    intro o ho
    rcases mem_cons.mp ho with rfl | ho
    · exact Nat.mod_lt _ (by decide)
    · exact ih _ o ho

theorem relOffs_eq (h : off + imagesLen strings < 2 ^ 32) : relOffs off strings = imageOffs off strings := by
  induction strings generalizing off with
  | nil => rfl
  | cons s strings ih =>
    have hlen := imagesLen_cons s strings
    rw [relOffs, imageOffs, Nat.mod_eq_of_lt (by omega), ih (by omega)]

/-- Every offset points at the image of its string. -/
theorem imageOffs_varlenaBytes (hs : Sized strings) (pre post : List UInt8) :
    (imageOffs pre.length strings).map (fun o => varlenaBytes (.ptr ((pre ++ (images strings ++ post)).drop o))) =
      strings.map .ok := by
  induction strings generalizing pre with
  | nil => rfl
  | cons s strings ih =>
    obtain ⟨hsize, hrest⟩ := forall_mem_cons.mp hs
    have himages : images (s :: strings) = varlenaImage s ++ images strings := by
      rw [images, map_cons, flatten_cons, images]
    have hrec := ih hrest (pre ++ varlenaImage s)
    rw [length_append, varlenaImage_length] at hrec
    rw [imageOffs, map_cons, map_cons, drop_left, himages]
    simp only [append_assoc] at hrec ⊢
    rw [hrec, varlenaBytes_image hsize]

end Images

section Frames

theorem images_append (xs ys : List (List UInt8)) : images (xs ++ ys) = images xs ++ images ys := by
  rw [images, map_append, flatten_append, images, images]

theorem imagesLen_append (xs ys : List (List UInt8)) : imagesLen (xs ++ ys) = imagesLen xs + imagesLen ys := by
  rw [← images_length, images_append, length_append, images_length, images_length]

/-- The cuts of the blob that keep groups of entries together. -/
def cutsOf : Nat → List (List (List UInt8)) → List (Nat × Nat)
  | _, [] => []
  | lo, group :: groups => (lo, lo + imagesLen group) :: cutsOf (lo + imagesLen group) groups

theorem eq_nil_of_imagesLen (h : imagesLen strings = 0) : strings = [] := by
  have := length_le_imagesLen strings
  rw [h] at this
  exact length_eq_zero_iff.mp (Nat.le_zero.mp this)

/-- The frame plan cuts between entries: it puts the entries pending since `lo` and the
ones to come into groups, none of them empty. -/
theorem frameCuts_groups (target : Nat) {blobLen lo acc : Nat} {strings pending : List (List UInt8)}
    (hacc : lo + imagesLen pending = acc) (hend : acc + imagesLen strings = blobLen) :
    ∃ groups : List (List (List UInt8)), frameCuts target blobLen strings lo acc = cutsOf lo groups ∧
      groups.flatten = pending ++ strings ∧ ∀ group ∈ groups, group ≠ [] := by
  induction strings generalizing lo acc pending with
  | nil =>
    simp only [imagesLen, map_nil, sum_nil, Nat.add_zero] at hend
    subst hend
    simp only [frameCuts]
    split
    · refine ⟨[pending], ?_, by simp, ?_⟩
      · rw [cutsOf, hacc, cutsOf]
      · intro group hgroup
        rw [mem_singleton.mp hgroup]
        intro hnil
        rw [hnil] at hacc
        simp only [imagesLen, map_nil, sum_nil] at hacc
        omega
    · have hnil : pending = [] := eq_nil_of_imagesLen (by omega)
      exact ⟨[], rfl, by rw [hnil]; rfl, by simp⟩
  | cons s strings ih =>
    have hlen := imagesLen_cons s strings
    have hone : imagesLen [s] = align4 (varlenaImgHdr + s.length) := by
      rfl
    have hpend := imagesLen_append pending [s]
    simp only [frameCuts]
    split
    · obtain ⟨groups, hcuts, hflat, hne⟩ := @ih (acc + align4 (varlenaImgHdr + s.length))
        (acc + align4 (varlenaImgHdr + s.length)) [] rfl (by omega)
      refine ⟨(pending ++ [s]) :: groups, ?_, ?_, ?_⟩
      · rw [cutsOf, hpend, hone, ← Nat.add_assoc, hacc, hcuts]
      · rw [flatten_cons, hflat]
        simp
      · intro group hgroup
        rcases mem_cons.mp hgroup with rfl | hgroup
        · simp
        · exact hne group hgroup
    · obtain ⟨groups, hcuts, hflat, hne⟩ := @ih lo (acc + align4 (varlenaImgHdr + s.length))
        (pending ++ [s]) (by omega) (by omega)
      exact ⟨groups, hcuts, by rw [hflat]; simp, hne⟩

end Frames

end ColumnarTextLayout
