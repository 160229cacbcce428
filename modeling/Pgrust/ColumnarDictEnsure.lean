import Pgrust.ColumnarTextFits

/-!
# Any order of ensure calls

A framed dictionary filled in by `ensure_code`, `ensure_frame` and `ensure_all`, called
in any order, always agrees with the writer's blob on the frames that are done, and ends
up as the dictionary `build_dict` makes at once.
-/
namespace ColumnarDictEnsure

open ByteImage ColumnarFormat ColumnarCodec ColumnarIntChunk ColumnarChunkView ColumnarChunkImage List
open ColumnarIntPlan ColumnarAppend ColumnarTextChunk ColumnarTextLayout ColumnarDictBlob
open ColumnarTextRoundTrip ColumnarDictLazy ColumnarTextFits

inductive EnsureCall where
  | code (code : Nat)
  | frame (f : Nat)
  | all

/-- The codes and frames there are. -/
def EnsureCall.Valid (d : DictLazy) : EnsureCall → Prop
  | .code k => k < d.entryOff.length
  | .frame f => f < d.frames.length
  | .all => True

def ensureAll (lib : Compressors) (d : DictLazy) : Option DictLazy :=
  if d.allDone then some d
  else (List.range d.frames.length).foldlM (fun d f => d.ensureFrame lib f) d

def ensure (lib : Compressors) (d : DictLazy) : EnsureCall → Option DictLazy
  | .code code => d.ensureCode lib code
  | .frame f => d.ensureFrame lib f
  | .all => ensureAll lib d

section Calls

variable {lib : Compressors} {cc : CodecCtx} {c : Codec} {fs : List (List UInt8 × List UInt8)}
  {groups : List (List (List UInt8))} {d : DictLazy} {calls : List EnsureCall}

theorem ensureFrames_eq (hinv : lib.Inverse) (h : Holds lib cc c fs d) {todo : List Nat}
    (htodo : ∀ f ∈ todo, f < fs.length) :
    ∃ d', todo.foldlM (fun d f => d.ensureFrame lib f) d = some d' ∧ Holds lib cc c fs d' ∧
      (∀ f ∈ todo, d'.done[f]? = some true) ∧ d'.entryOff = d.entryOff ∧
      ∀ g : Nat, d.done[g]? = some true → d'.done[g]? = some true := by
  induction todo generalizing d with
  | nil => exact ⟨d, rfl, h, by simp, rfl, fun _ hg => hg⟩
  | cons f todo ih =>
    obtain ⟨d₁, hd₁, h₁, hf, hoff₁, hmono₁⟩ := ensureFrame_eq hinv h (htodo f (by simp))
    obtain ⟨d₂, hd₂, h₂, hrest, hoff₂, hmono₂⟩ := ih h₁ (forall_mem_cons.mp htodo).2
    refine ⟨d₂, ?_, h₂, ?_, hoff₂.trans hoff₁, fun g hg => hmono₂ g (hmono₁ g hg)⟩
    · rw [foldlM_cons, hd₁]
      exact hd₂
    · intro g hg
      rcases mem_cons.mp hg with rfl | hg
      · exact hmono₂ g hf
      · exact hrest g hg

/-- What a run of calls leaves behind. -/
structure Ensured (lib : Compressors) (cc : CodecCtx) (c : Codec)
    (fs : List (List UInt8 × List UInt8)) (groups : List (List (List UInt8)))
    (calls : List EnsureCall) (d : DictLazy) : Prop where
  holds : Holds lib cc c fs d
  raws : fs.map Prod.fst = groups.map images
  entryOff : d.entryOff = imageOffs 0 groups.flatten
  codes : ∀ code off s, .code code ∈ calls → (imageOffs 0 groups.flatten)[code]? = some off →
    groups.flatten[code]? = some s → Covered fs d off s
  all : .all ∈ calls → ∀ f : Nat, f < fs.length → d.done[f]? = some true

/-- One more call that does its own part and undoes nothing. -/
theorem Ensured.extend (h : Ensured lib cc c fs groups calls d) (holds : Holds lib cc c fs d')
    (hoff : d'.entryOff = d.entryOff) (hmono : ∀ g : Nat, d.done[g]? = some true → d'.done[g]? = some true)
    (hcode : ∀ code off s, call = .code code → (imageOffs 0 groups.flatten)[code]? = some off →
      groups.flatten[code]? = some s → Covered fs d' off s)
    (hall : call = .all → ∀ f : Nat, f < fs.length → d'.done[f]? = some true) :
    Ensured lib cc c fs groups (calls ++ [call]) d' := by
  refine ⟨holds, h.raws, hoff.trans h.entryOff, ?_, ?_⟩
  · intro code off s hmem hat hs
    rcases mem_append.mp hmem with hmem | hmem
    · exact (h.codes code off s hmem hat hs).mono hmono
    · exact hcode code off s (mem_singleton.mp hmem).symm hat hs
  · intro hmem f hf
    rcases mem_append.mp hmem with hmem | hmem
    · exact hmono f (h.all hmem f hf)
    · exact hall (mem_singleton.mp hmem).symm f hf

theorem ensure_step (hinv : lib.Inverse) (h : Ensured lib cc c fs groups calls d) {call : EnsureCall}
    (hvalid : call.Valid d) :
    ∃ d', ensure lib d call = some d' ∧ Ensured lib cc c fs groups (calls ++ [call]) d' := by
  have hframes : d.frames.length = fs.length := by rw [h.holds.frames, length_map]
  cases call with
  | code code =>
    have hlt : code < groups.flatten.length := by
      rw [← imageOffs_length 0, ← h.entryOff]
      exact hvalid
    have hs := getElem?_eq_getElem hlt
    have hat := getElem?_eq_getElem (show code < (imageOffs 0 groups.flatten).length by
      rwa [imageOffs_length])
    obtain ⟨d', hd', holds, hcov, hoff, hmono⟩ := ensureCode_eq hinv h.holds h.raws h.entryOff hs hat
    refine ⟨d', hd', h.extend holds hoff hmono ?_ (by simp)⟩
    intro code' off s hcode hat' hs'
    cases hcode
    rw [hat] at hat'
    rw [hs] at hs'
    cases hat'
    cases hs'
    exact hcov
  | frame f =>
    obtain ⟨d', hd', holds, -, hoff, hmono⟩ := ensureFrame_eq hinv h.holds
      (show f < fs.length from hframes ▸ hvalid)
    exact ⟨d', hd', h.extend holds hoff hmono (by simp) (by simp)⟩
  | all =>
    by_cases hdone : d.allDone = true
    · refine ⟨d, by rw [ensure, ensureAll, if_pos hdone], ?_⟩
      exact h.extend h.holds rfl (fun _ hg => hg) (by simp) (fun _ f hf => h.holds.done_of_all hdone hf)
    · obtain ⟨d', hd', holds, hall, hoff, hmono⟩ := ensureFrames_eq hinv h.holds
        (show ∀ f ∈ List.range d.frames.length, f < fs.length by simp [hframes])
      refine ⟨d', by rw [ensure, ensureAll, if_neg hdone, hd'], h.extend holds hoff hmono (by simp) ?_⟩
      intro _ f hf
      exact hall f (mem_range.mpr (hframes ▸ hf))

theorem Ensured.valid_iff (h₀ : Ensured lib cc c fs groups [] d₀) (h : Ensured lib cc c fs groups calls d)
    (call : EnsureCall) : call.Valid d ↔ call.Valid d₀ := by
  cases call with
  | code => rw [EnsureCall.Valid, EnsureCall.Valid, h.entryOff, h₀.entryOff]
  | frame => rw [EnsureCall.Valid, EnsureCall.Valid, h.holds.frames, h₀.holds.frames]
  | all => exact Iff.rfl

theorem ensure_run (hinv : lib.Inverse) (h : Ensured lib cc c fs groups [] d)
    (hvalid : ∀ call ∈ calls, call.Valid d) :
    ∃ d', calls.foldlM (ensure lib) d = some d' ∧ Ensured lib cc c fs groups calls d' := by
  induction calls using List.reverseRecOn with
  | nil => exact ⟨d, rfl, h⟩
  | append_singleton calls call ih =>
    obtain ⟨d₁, hd₁, h₁⟩ := ih (fun call hc => hvalid call (mem_append_left _ hc))
    obtain ⟨d₂, hd₂, h₂⟩ := ensure_step hinv h₁ ((h.valid_iff h₁ call).mpr (hvalid call (by simp)))
    refine ⟨d₂, ?_, h₂⟩
    rw [foldlM_append, hd₁]
    simp [hd₂]

theorem exists_frame (n k : Nat) (hk : k < rawAt fs n) : ∃ f, f < n ∧ rawAt fs f ≤ k ∧ k < rawAt fs (f + 1) := by
  induction n with
  | zero => simp [rawAt, entryOff] at hk
  | succ n ih =>
    rcases Nat.lt_or_ge k (rawAt fs n) with hlt | hge
    · obtain ⟨f, hf, hlo, hhi⟩ := ih hlt
      exact ⟨f, by omega, hlo, hhi⟩
    · exact ⟨n, Nat.lt_succ_self n, hge, hk⟩

/-- With every frame done the arena is the writer's blob. -/
theorem Ensured.arena_eq (h : Ensured lib cc c fs groups calls d)
    (hall : ∀ f : Nat, f < fs.length → d.done[f]? = some true) :
    memBytes d.mem (images groups.flatten).length = images groups.flatten := by
  apply memBytes_eq
  intro k hk
  rw [← h.holds.total_eq h.raws, h.holds.rawOff, h.holds.frames, length_map] at hk
  obtain ⟨f, hf, hlo, hhi⟩ := exists_frame fs.length k hk
  have hready := h.holds.ready f (hall f hf) k hlo hhi
  rwa [images_groups h.raws] at hready

end Calls

section Chunk

variable {lib : Compressors} {cc : CodecCtx} {strings : List (List UInt8)} {capture : Bool}
  {body rest body' : List UInt8} {mm : I64 × I64} {dict : Option (List (List UInt8))} {v : ChunkView}
  {plan : TextPlan} (hs : Sized strings) (hrows : strings.length ≤ rgRows) (hbody : 64 ∣ body.length)
  (henc : encodeTextChunk lib cc body (TextBuilder.of strings) (granuleCount strings.length) capture =
    some (body', mm, dict))
  (hat : ChunkView.at (body' ++ rest) body.length strings.length = some v)
include hs hrows hbody henc hat

theorem shows_of_encode (htotal : strings.flatten.length < 2 ^ 32)
    (hplan : textPlan lib cc strings (granuleCount strings.length) = some plan)
    (ha : Announced plan (granuleCount strings.length)) : ShowsText v plan strings.length := by
  have hng := granuleCount_le hrows
  obtain ⟨body₁, mm₁, dict₁, v₁, henc₁, hat₁, hv⟩ :=
    @encode_shows lib cc strings capture body rest plan hs htotal (by omega) hplan ha hbody
  rw [henc₁] at henc
  cases henc
  rw [hat₁] at hat
  cases hat
  exact hv

/-- A framed chunk the encoder has written is a dictionary chunk whose blob fits. -/
theorem shown_of_framed (hinv : lib.Inverse) (hframed : isFramed v = true) :
    ∃ stored, DictShown lib cc strings stored v ∧ stored.framed = true := by
  have htotal : strings.flatten.length < 2 ^ 32 := by
    by_contra hbig
    rw [encode_of_total hs hbig] at henc
    cases henc
  have hsome : textPlan lib cc strings (granuleCount strings.length) ≠ none := by
    intro hnone
    rw [encode_of_planNone hs hnone] at henc
    cases henc
  have hlz4 : v.hdr.encoding = .lz4Dict := by
    simp only [isFramed, decide_eq_true_eq] at hframed
    exact hframed.1
  have hshows := fun {p} => @shows_of_encode lib cc strings capture body rest body' mm dict v p hs hrows hbody henc hat
    htotal
  by_cases hdict : useDict strings = true
  · have hfit : imagesLen (dictPass strings).order < 2 ^ 32 := by
      by_contra hbig
      rw [textPlan, if_pos hdict] at hsome
      exact hsome ((dictPlan_eq hs).2 (Nat.le_of_not_lt hbig))
    obtain ⟨stored, hspec, hbytes, hplan⟩ := (@dictPlan_eq lib cc strings hs).1 hfit
    have hv := hshows (by rw [textPlan, if_pos hdict, hplan]) (dict_announced hrows hspec hfit hbytes)
    have hshown : DictShown lib cc strings stored v := ⟨hinv, hs, hdict, hspec, by rwa [imagesLen_sorted], hv⟩
    exact ⟨stored, hshown, by rwa [← isFramed_eq hshown]⟩
  · rcases @compressedText_cases lib cc strings with hnone | ⟨c, frames, hcomp, h⟩
    · have hlen : imagesLen strings < 2 ^ 32 := by
        by_contra hbig
        exact hsome ((textPlan_raw hdict hnone).trans (rawTextPlan_none hs hbig))
      obtain ⟨plan, hplan, ha⟩ := rawText_announced hs hrows hlen
      have hv := hshows ((textPlan_raw hdict hnone).trans hplan) ha
      rw [hv.encoding, rawText_encoding hplan] at hlz4
      cases hlz4
    · have hv := hshows (textPlan_lz4 hdict hcomp) (lz4Text_announced h hrows htotal)
      rw [hv.encoding] at hlz4
      cases hlz4

end Chunk

/-- Lazy materialization against the eager build of the same chunk: whatever the calls,
what is done is the writer's blob, an ensured code reads as the eager entry does, and
`ensure_all` leaves the eager dictionary. -/
theorem lazy_eq_eager (lib : Compressors) (hinv : lib.Inverse) (cc : CodecCtx)
    (strings : List (List UInt8)) (hs : Sized strings) (hrows : strings.length ≤ rgRows)
    (capture : Bool) (body rest : List UInt8) (hbody : 64 ∣ body.length) (body' : List UInt8)
    (mm : I64 × I64) (dict : Option (List (List UInt8))) (v : ChunkView)
    (henc : encodeTextChunk lib cc body (TextBuilder.of strings) (granuleCount strings.length) capture =
      some (body', mm, dict))
    (hat : ChunkView.at (body' ++ rest) body.length strings.length = some v)
    (hframed : isFramed v = true) (buf arena : Lz4dec.Mem) :
    ∃ d₀ st, buildDictLazy v buf = some d₀ ∧ v.buildDict lib ⟨[], arena⟩ = some st ∧
      ∀ calls : List EnsureCall, (∀ call ∈ calls, call.Valid d₀) → ∃ d, calls.foldlM (ensure lib) d₀ = some d ∧
          (∀ f : Nat, d.done[f]? = some true → ∀ k, d.rawOff f ≤ k → k < d.rawOff (f + 1) →
            d.mem k = (images (sortedDict (dictPass strings).order)).getD k 0) ∧
          (∀ code, .code code ∈ calls → ∃ p q s, d.entry code = some p ∧ st.dict[code]? = some q ∧
            varlenaBytes p = .ok s ∧ varlenaBytes q = .ok s) ∧
          (.all ∈ calls → memBytes d.mem (d.rawOff d.frames.length) = memBytes st.arena (d.rawOff d.frames.length) ∧
            ∀ code, d.entry code = st.dict[code]?) := by
  obtain ⟨stored, hshown, hstored⟩ := shown_of_framed hs hrows hbody henc hat hinv hframed
  obtain ⟨d₀, hd₀, ⟨c, groups, fs, holds, hgroups, hraws⟩, hoff⟩ := buildDictLazy_eq hshown hstored buf
  obtain ⟨post, arena', hbuild, heager⟩ := buildDict_fresh hshown arena
  obtain ⟨rfl, harena⟩ := heager hstored
  rw [append_nil] at hbuild
  have hsized := sortedDict_sized hs
  rw [← hgroups] at hbuild harena hoff hsized ⊢
  have h₀ : Ensured lib cc c fs groups [] d₀ := ⟨holds, hraws, hoff, by simp, by simp⟩
  refine ⟨d₀, _, hd₀, hbuild, ?_⟩
  intro calls hvalid
  obtain ⟨d, hd, h⟩ := ensure_run hinv h₀ hvalid
  refine ⟨d, hd, ?_, ?_, ?_⟩
  · intro f hf k hlo hhi
    rw [h.holds.rawOff] at hlo hhi
    rw [← h.holds.ready f hf k hlo hhi, images_groups hraws]
  · intro code hmem
    have hlt : code < (imageOffs 0 groups.flatten).length := hoff ▸ hvalid _ hmem
    have hpos := getElem?_eq_getElem hlt
    rw [imageOffs_length] at hlt
    have hget := getElem?_eq_getElem hlt
    have hsize := hsized _ (getElem_mem hlt)
    obtain ⟨p, hp, hok⟩ := entry_eq h.holds hraws h.entryOff hsize hget hpos (h.codes _ _ _ hmem hpos hget)
    obtain ⟨o, ho, -, hsits⟩ := imageOffs_get hpos hget
    obtain ⟨tail, htail⟩ := hsits.drop
    refine ⟨p, _, _, hp, by rw [getElem?_map, hpos, Option.map_some], hok, ?_⟩
    rw [ho, Nat.zero_add, htail]
    exact varlenaBytes_image hsize tail
  · intro hmem
    have hblob := h.arena_eq (h.all hmem)
    rw [h.holds.total_eq hraws, hblob]
    refine ⟨harena.symm, ?_⟩
    intro code
    rw [DictLazy.entry, h.entryOff, h.holds.total_eq hraws, hblob, getElem?_map]
    cases (imageOffs 0 groups.flatten)[code]? <;> rfl

/-- A dictionary of a long entry and a short one. -/
def longShort : List (List UInt8) := [List.replicate 36 1, [2]]

def twoRowsEach : List (List UInt8) := longShort ++ longShort

/-- Frames of one entry each. -/
def framing : CodecCtx := ⟨.zstd, 3, true, true, 1⟩

/-- Compressors whose zstd knows one frame and the blob of `longShort` by heart. -/
def byHeart : Compressors where
  lz4 := Lz4Block.literalBlock
  zstd _ data :=
    if data = images (longShort.take 1) then [1] else if data = images longShort then [2] else 0 :: data
  zstdDecode
    | [1] => some (images (longShort.take 1))
    | [2] => some (images longShort)
    | 0 :: data => some data
    | _ => none

theorem byHeart_inverse : byHeart.Inverse := by
  refine ⟨Lz4Block.decode_literalBlock, ?_⟩
  intro level data
  simp only [byHeart]
  split_ifs with h₁ h₂
  · exact congrArg some h₁.symm
  · exact congrArg some h₂.symm
  · rfl

theorem longShort_sorted : sortedDict (dictPass twoRowsEach).order = longShort := by
  have horder : (dictPass twoRowsEach).order = longShort := by decide
  have hperm : dictPerm longShort = List.range 2 := by
    exact mergeSort_of_pairwise (by decide)
  rw [horder, sortedDict, hperm]
  decide

theorem twoRowsEach_framed : ∃ plan, dictPlan byHeart framing twoRowsEach = some plan ∧
    plan.encoding = .lz4Dict ∧ plan.flags = 12 := by
  obtain ⟨stored, hstored, henc, hframed⟩ : ∃ stored, storedDict byHeart framing 12 longShort
      (longShort.foldl pushVarlenaImage []) = some stored ∧ stored.encoding = .lz4Dict ∧
      stored.framed = true := ⟨_, rfl, rfl, rfl⟩
  obtain ⟨offs, hoffs⟩ : ∃ offs, offTable 0 longShort = some offs := ⟨_, rfl⟩
  have hhead : align4 (twoRowsEach.length * codeW (dictPass twoRowsEach).order.length) +
      longShort.length * 4 = 12 := by decide
  rw [dictPlan, longShort_sorted]
  simp only [hhead, hstored]
  exact ⟨_, rfl, henc, by simp only [hframed]; rfl⟩

theorem lazy_eq_eager_two_frames : ∃ body' mm dict v d₀ st d,
      encodeTextChunk byHeart framing [] (TextBuilder.of twoRowsEach) 1 false = some (body', mm, dict) ∧
      ChunkView.at (body' ++ []) 0 4 = some v ∧ isFramed v = true ∧
      buildDictLazy v (fun _ => 7) = some d₀ ∧ v.buildDict byHeart ⟨[], fun _ => 9⟩ = some st ∧
      [EnsureCall.all].foldlM (ensure byHeart) d₀ = some d ∧ ∀ code, d.entry code = st.dict[code]? := by
  have hs : Sized twoRowsEach := by simp [Sized, twoRowsEach, longShort]
  obtain ⟨plan, hplan, henc, hflags⟩ := twoRowsEach_framed
  obtain ⟨stored, hspec, hbytes, hlayout⟩ := (@dictPlan_eq byHeart framing _ hs).1 (by decide)
  have ha := dict_announced (by decide) hspec (by decide) hbytes
  rw [hlayout] at hplan
  cases hplan
  obtain ⟨body', mm, dict, v, hencode, hat, hv⟩ := @encode_shows byHeart framing twoRowsEach false [] []
    (dictLayout twoRowsEach stored) hs (by decide) (by decide) (by rw [textPlan, if_pos (by decide), hlayout])
    ha ⟨0, rfl⟩
  have hframed : isFramed v = true := by
    rw [isFramed, hv.encoding, hv.flags, henc, hflags]
    decide
  obtain ⟨d₀, st, hd₀, hst, hcalls⟩ := lazy_eq_eager byHeart byHeart_inverse framing twoRowsEach hs (by decide)
    false [] [] ⟨0, rfl⟩ body' mm dict v hencode hat hframed (fun _ => 7) (fun _ => 9)
  obtain ⟨d, hd, -, -, hall⟩ := hcalls [.all] (by simp [EnsureCall.Valid])
  exact ⟨body', mm, dict, v, d₀, st, d, hencode, hat, hframed, hd₀, hst, hd, (hall (by simp)).2⟩

end ColumnarDictEnsure
