import Pgrust.ColumnarTextRoundTrip

/-!
# The lazily materialized dictionary

`decode_granule_codes` publishes the dictionary of a framed chunk without
decompressing it: a frame is filled in when a code of it is first read. A frame that
is done holds its raw bytes whatever the order the frames were asked for in, because
the decoder's slack only ever falls on frames that are not done.
-/
namespace ColumnarDictLazy

open ByteImage ColumnarFormat ColumnarCodec ColumnarIntChunk ColumnarChunkView ColumnarAppend List
open ColumnarIntPlan ColumnarTextChunk ColumnarTextLayout ColumnarDictBlob ColumnarTextRoundTrip

/-- The frame directory with the arena, and which frames are materialized. -/
structure DictLazy where
  mem : Lz4dec.Mem
  frames : List (Nat × Nat)
  src : List UInt8
  codec : Codec
  entryOff : List Nat
  done : List Bool

namespace DictLazy

def rawOff (d : DictLazy) (f : Nat) : Nat := ((d.frames.take f).map Prod.fst).sum
def compOff (d : DictLazy) (f : Nat) : Nat := ((d.frames.take f).map Prod.snd).sum
def allDone (d : DictLazy) : Bool := d.done.all id

/-- No materialized frame among the `k` from `g` on starts below `limit`. -/
def spillClear (d : DictLazy) (limit : Nat) : Nat → Nat → Bool
  | 0, _ => true
  | k + 1, g =>
    if d.rawOff g < limit then
      if d.done[g]? = some true then false else spillClear d limit k (g + 1)
    else true

variable (lib : Compressors)

/-- The arena once frame `f` is decompressed: in place where the slack behind it is
free, through a scratch buffer otherwise. -/
def fillIn (d : DictLazy) (f rawLen : Nat) (src : List UInt8) : Option Lz4dec.Mem :=
  let rawLo := d.rawOff f
  if src.length = rawLen then
    some (fun k => if rawLo ≤ k ∧ k < rawLo + rawLen then src.getD (k - rawLo) 0 else d.mem k)
  else if d.spillClear (rawLo + rawLen + Lz4dec.outPad) (d.frames.length - (f + 1)) (f + 1) then do
    let out ← decompressFrameInto lib d.codec src (fun k => d.mem (rawLo + k)) (rawLen + Lz4dec.outPad) rawLen
    some (fun k => if rawLo ≤ k ∧ k < rawLo + rawLen + Lz4dec.outPad then out (k - rawLo) else d.mem k)
  else do
    let scratch ← decompressFrameInto lib d.codec src (fun _ => 0) (rawLen + Lz4dec.outPad) rawLen
    some (fun k => if rawLo ≤ k ∧ k < rawLo + rawLen then scratch (k - rawLo) else d.mem k)

def ensureFrame (d : DictLazy) (f : Nat) : Option DictLazy :=
  match d.done[f]?, d.frames[f]? with
  | some true, _ => some d
  | some false, some (rawLen, compLen) => do
    let src ← slice d.src (d.compOff f) compLen
    let mem ← d.fillIn lib f rawLen src
    some { d with mem := mem, done := d.done.set f true }
  | _, _ => none

/-- The last frame that starts at or before `off`. -/
def frameOf (d : DictLazy) (off : Nat) : Nat :=
  ((List.range (d.frames.length + 1)).takeWhile (fun f => decide (d.rawOff f ≤ off))).length - 1

def ensureCode (d : DictLazy) (code : Nat) : Option DictLazy :=
  if d.allDone then some d
  else do
    let off ← d.entryOff[code]?
    d.ensureFrame lib (d.frameOf off)

/-- The bytes behind the published pointer of `code`, as the arena has them now. -/
def entry (d : DictLazy) (code : Nat) : Option Datum := do
  let off ← d.entryOff[code]?
  some (.ptr ((memBytes d.mem (d.rawOff d.frames.length)).drop off))

end DictLazy

/-- The dictionary a scan has published for the row group, if any. -/
inductive DictTable where
  | empty
  | eager (dict : List Datum)
  | lazy (d : DictLazy)

section Codes

variable (lib : Compressors)

def isFramed (v : ChunkView) : Bool := v.hdr.encoding = .lz4Dict ∧ v.hdr.flags &&& chunkFlagDictFramed ≠ 0

/-- `build_dict_lazy`: the pointer table over an arena of which no frame is done. -/
def buildDictLazy (v : ChunkView) (arena : Lz4dec.Mem) : Option DictLazy := do
  let ndv := v.hdr.aux.toNat
  let p ← v.payload
  let codesLen := align4 (v.nrows * v.hdr.width.toNat)
  let offTab ← slice p codesLen (ndv * 4)
  if p.length < codesLen + ndv * 4 then none
  else do
    let blob := p.drop (codesLen + ndv * 4)
    let (frames, data) ← parseFramedDict blob
    let offs ← lanes 4 ndv offTab
    some { mem := arena, frames := frames, src := blob.drop data, codec := v.hdr.frameCodec
           entryOff := offs.map leNat, done := List.replicate frames.length false }

/-- The dictionary is built once, keyed on an empty table: lazily for framed chunks
unless lazy reads are switched off. -/
def buildTable (v : ChunkView) (lazyRead : Bool) (arena : Lz4dec.Mem) : DictTable → Option (DictTable × Lz4dec.Mem)
  | .empty =>
    if isFramed v && lazyRead then (buildDictLazy v arena).map (fun d => (.lazy d, arena))
    else (v.buildDict lib ⟨[], arena⟩).map (fun st => (.eager st.dict, st.arena))
  | t => some (t, arena)

/-- `decode_granule_codes`: `none` inside says that the chunk is not dictionary-encoded. -/
def decodeGranuleCodes (v : ChunkView) (lazyRead : Bool) (g : Nat) (t : DictTable)
    (arena : Lz4dec.Mem) : Option (Option (List Nat × DictTable × Lz4dec.Mem)) :=
  if !v.isDict then some none
  else do
    let (t, arena) ← buildTable lib v lazyRead arena t
    let n ← v.granuleRows g
    let codes ← v.granuleCodes g n
    some (some (codes, t, arena))

/-- The string of a code: a lazy entry is read after its frame is ensured. -/
def DictTable.value (code : Nat) : DictTable → Option (Run (List UInt8) × DictTable)
  | .empty => none
  | .eager dict => do
    let d ← dict[code]?
    some (varlenaBytes d, .eager dict)
  | .lazy d => do
    let d ← d.ensureCode lib code
    let p ← d.entry code
    some (varlenaBytes p, .lazy d)

def DictTable.values : List Nat → DictTable → Option (List (Run (List UInt8)) × DictTable)
  | [], t => some ([], t)
  | code :: codes, t => do
    let (s, t) ← t.value lib code
    let (rest, t) ← DictTable.values codes t
    some (s :: rest, t)

/-- The strings of a granule by its codes, or by its pointers where it has none. -/
def readGranule (v : ChunkView) (lazyRead : Bool) (g : Nat) (t : DictTable) (arena : Lz4dec.Mem) :
    Option (List (Run (List UInt8)) × DictTable × Lz4dec.Mem) := do
  match ← decodeGranuleCodes lib v lazyRead g t arena with
  | some (codes, t, arena) => do
    let (vals, t) ← t.values lib codes
    some (vals, t, arena)
  | none => do
    let (vals, st) ← v.decodeGranule lib g ⟨[], arena⟩
    some (vals.map varlenaBytes, t, st.arena)

def readFrom (v : ChunkView) (lazyRead : Bool) :
    Nat → Nat → DictTable → Lz4dec.Mem → Option (List (Run (List UInt8)))
  | 0, _, _, _ => some []
  | k + 1, g, t, arena => do
    let (vals, t, arena) ← readGranule lib v lazyRead g t arena
    let rest ← readFrom v lazyRead k (g + 1) t arena
    some (vals ++ rest)

/-- Every granule of a chunk through its codes. -/
def readAll (v : ChunkView) (lazyRead : Bool) (arena : Lz4dec.Mem) : Option (List (Run (List UInt8))) :=
  readFrom lib v lazyRead v.hdr.ngranules 0 .empty arena

end Codes

variable {f i off code : Nat} {p : List UInt8 × List UInt8} {s : List UInt8}
  {order : List (List UInt8)} {t : DictTable} {stored : StoredDict} {v : ChunkView}

section Ensure

variable {lib : Compressors} {cc : CodecCtx} {c : Codec} {fs : List (List UInt8 × List UInt8)}

/-- The raw offset of frame `f`. -/
def rawAt (fs : List (List UInt8 × List UInt8)) (f : Nat) : Nat := entryOff (fs.map Prod.fst) f

theorem rawAt_succ (h : fs[f]? = some p) : rawAt fs (f + 1) = rawAt fs f + p.1.length := by
  have hget : (fs.map Prod.fst)[f]? = some p.1 := by rw [getElem?_map, h, Option.map_some]
  rw [rawAt, rawAt, entryOff, entryOff, take_add_one, hget]
  simp

theorem rawAt_mono {f g : Nat} (h : f ≤ g) : rawAt fs f ≤ rawAt fs g := by
  induction h with
  | refl => exact le_rfl
  | @step g _ ih =>
    refine ih.trans ?_
    cases hg : fs[g]? with
    | none =>
      have hlen := List.getElem?_eq_none_iff.mp hg
      rw [rawAt, rawAt, entryOff, entryOff, take_of_length_le (by rwa [length_map]),
        take_of_length_le (by rw [length_map]; omega)]
    | some =>
      rw [rawAt_succ hg]
      exact Nat.le_add_right _ _

/-- The directory of `d` is that of `fs`, and every frame that is done is in place. -/
structure Holds (lib : Compressors) (cc : CodecCtx) (c : Codec)
    (fs : List (List UInt8 × List UInt8)) (d : DictLazy) : Prop where
  frames : d.frames = fs.map (fun f => (f.1.length, f.2.length))
  src : Sits d.src 0 (fs.map Prod.snd).flatten
  codec : d.codec = c
  stored : ∀ f ∈ fs, StoredFrame lib cc c f
  total : (fs.map Prod.fst).flatten.length < 2 ^ 32
  done_length : d.done.length = fs.length
  ready : ∀ f, d.done[f]? = some true → ∀ k, rawAt fs f ≤ k → k < rawAt fs (f + 1) →
    (fs.map Prod.fst).flatten.getD k 0 = d.mem k

variable {d : DictLazy}

theorem Holds.rawOff (h : Holds lib cc c fs d) (f : Nat) : d.rawOff f = rawAt fs f := by
  rw [DictLazy.rawOff, h.frames, rawAt, entryOff, ← map_take, ← map_take, map_map, map_map]
  rfl

theorem Holds.compOff (h : Holds lib cc c fs d) (f : Nat) : d.compOff f = entryOff (fs.map Prod.snd) f := by
  rw [DictLazy.compOff, h.frames, entryOff, ← map_take, ← map_take, map_map, map_map]
  rfl

theorem spillClear_not_done (h : Holds lib cc c fs d) (hclear : d.spillClear limit k g = true) (hgi : g ≤ i)
    (hik : i < g + k) (hlt : rawAt fs i < limit) : d.done[i]? ≠ some true := by
  induction k generalizing g with
  | zero => omega
  | succ k ih =>
    have hg : rawAt fs g < limit := (rawAt_mono hgi).trans_lt hlt
    simp only [DictLazy.spillClear, h.rawOff, hg, if_true] at hclear
    split at hclear
    · cases hclear
    · rename_i hnot
      rcases Nat.eq_or_lt_of_le hgi with rfl | hgt
      · exact hnot
      · exact ih hclear hgt (by omega)

/-- Filling in frame `f` puts its bytes in place and keeps every frame that is done. -/
theorem fillIn_eq (hinv : lib.Inverse) (h : Holds lib cc c fs d) (hp : fs[f]? = some p) :
    ∃ mem, d.fillIn lib f p.1.length p.2 = some mem ∧ (∀ i, i < p.1.length → p.1.getD i 0 = mem (rawAt fs f + i)) ∧
      ∀ g, g ≠ f → d.done[g]? = some true → ∀ k, rawAt fs g ≤ k → k < rawAt fs (g + 1) → mem k = d.mem k := by
  have hmem : p ∈ fs := mem_of_getElem? hp
  have hst := h.stored p hmem
  have hsucc := rawAt_succ hp
  have hlen := hst.length_le
  have htotal := h.total
  have hraw : p.1.length < 2 ^ 32 := by
    have hle := length_le_sum (f := fun f => f.1.length) hmem
    rw [sum_raw rfl] at hle
    omega
  -- a frame before `f` ends where `f` starts, one behind starts where `f` ends
  have hapart : ∀ g, g ≠ f → ∀ k, rawAt fs g ≤ k → k < rawAt fs (g + 1) →
      k < rawAt fs f ∨ (f < g ∧ rawAt fs f + p.1.length ≤ rawAt fs g) := by
    intro g hg k _ hk
    rcases Nat.lt_or_ge g f with hlt | hge
    · have := @rawAt_mono fs (g + 1) f hlt
      exact .inl (by omega)
    · have hfg : f < g := by omega
      have := @rawAt_mono fs (f + 1) g hfg
      exact .inr ⟨hfg, by omega⟩
  simp only [DictLazy.fillIn, h.rawOff, h.codec]
  by_cases heq : p.2.length = p.1.length
  · rw [if_pos heq]
    refine ⟨_, rfl, ?_, ?_⟩
    · intro i hi
      rw [if_pos (by omega), Nat.add_sub_cancel_left, hst.eq_of_length heq]
    · intro g hg _ k hlo hhi
      rw [if_neg]
      rcases hapart g hg k hlo hhi with hlt | ⟨-, hge⟩ <;> omega
  · rw [if_neg heq]
    have hcomp : cc.compress lib c p.1 = some p.2 :=
      (hst.resolve_left fun hst => heq (congrArg List.length hst)).1
    have hroom : p.1.length + Lz4dec.outPad < 2 ^ 63 := by
      simp only [Lz4dec.outPad]
      omega
    split
    · rename_i hclear
      obtain ⟨out, hout, hbytes⟩ := decompressFrameInto_compress hinv hcomp (by omega) hroom (le_rfl)
      rw [hout]
      refine ⟨_, rfl, ?_, ?_⟩
      · intro i hi
        rw [if_pos (by omega), Nat.add_sub_cancel_left, hbytes i hi]
      · intro g hg hdone k hlo hhi
        rw [if_neg]
        rcases hapart g hg k hlo hhi with hlt | ⟨hfg, hge⟩
        · omega
        · have hgl : g < fs.length := by
            obtain ⟨hgl, -⟩ := List.getElem?_eq_some_iff.mp hdone
            rwa [h.done_length] at hgl
          have hframes : d.frames.length = fs.length := by rw [h.frames, length_map]
          have hclear' : ¬ rawAt fs g < rawAt fs f + p.1.length + Lz4dec.outPad := by
            intro hlt
            exact spillClear_not_done h hclear hfg (by omega) hlt hdone
          omega
    · obtain ⟨out, hout, hbytes⟩ := decompressFrameInto_compress hinv hcomp (by omega) hroom (le_rfl)
      rw [hout]
      refine ⟨_, rfl, ?_, ?_⟩
      · intro i hi
        rw [if_pos (by omega), Nat.add_sub_cancel_left, hbytes i hi]
      · intro g hg _ k hlo hhi
        rw [if_neg]
        rcases hapart g hg k hlo hhi with hlt | ⟨-, hge⟩ <;> omega

theorem rawAt_sits (hp : fs[f]? = some p) : Sits (fs.map Prod.fst).flatten (rawAt fs f) p.1 := by
  obtain ⟨hf, rfl⟩ := List.getElem?_eq_some_iff.mp hp
  have hsits := @sits_flatten (fs.map Prod.fst) f (by rwa [length_map])
  rwa [get_eq_getElem, getElem_map] at hsits

/-- Ensuring a frame makes it done and keeps what the arena holds. -/
theorem ensureFrame_eq (hinv : lib.Inverse) (h : Holds lib cc c fs d) (hf : f < fs.length) :
    ∃ d', d.ensureFrame lib f = some d' ∧ Holds lib cc c fs d' ∧ d'.done[f]? = some true ∧
      d'.entryOff = d.entryOff ∧ ∀ g : Nat, d.done[g]? = some true → d'.done[g]? = some true := by
  have hp : fs[f]? = some fs[f] := getElem?_eq_getElem hf
  have hdone : f < d.done.length := by rw [h.done_length]; exact hf
  have hget : d.done[f]? = some d.done[f] := getElem?_eq_getElem hdone
  have hframe : d.frames[f]? = some (fs[f].1.length, fs[f].2.length) := by
    rw [h.frames, getElem?_map, hp, Option.map_some]
  cases hb : d.done[f] with
  | true =>
    rw [hb] at hget
    exact ⟨d, by simp [DictLazy.ensureFrame, hget], h, hget, rfl, fun _ hg => hg⟩
  | false =>
    rw [hb] at hget
    obtain ⟨mem, hmem, hbytes, hkeep⟩ := fillIn_eq hinv h hp
    have hsrc : slice d.src (d.compOff f) fs[f].2.length = some fs[f].2 := by
      have hsits := @sits_flatten (fs.map Prod.snd) f (by rwa [length_map])
      rw [get_eq_getElem, getElem_map] at hsits
      have hall := h.src.trans hsits
      rw [Nat.zero_add, ← h.compOff] at hall
      exact hall.slice
    refine ⟨{ d with mem := mem, done := d.done.set f true }, ?_, ?_, ?_, rfl, ?_⟩
    · simp [DictLazy.ensureFrame, hget, hframe, hsrc, hmem]
    · refine ⟨h.frames, h.src, h.codec, h.stored, h.total, ?_, ?_⟩
      · rw [length_set, h.done_length]
      · intro g hg k hlo hhi
        obtain rfl | hgf := eq_or_ne g f
        · rw [rawAt_succ hp] at hhi
          obtain ⟨i, rfl⟩ := Nat.exists_eq_add_of_le hlo
          have hi : i < fs[g].1.length := by omega
          rw [(rawAt_sits hp).getD hi, hbytes i hi]
        · have hold : d.done[g]? = some true := by
            rwa [getElem?_set_ne (Ne.symm hgf)] at hg
          rw [h.ready g hold k hlo hhi]
          exact (hkeep g hgf hold k hlo hhi).symm
    · exact getElem?_set_self hdone
    · intro g hg
      by_cases hgf : g = f
      · rw [hgf, getElem?_set_self hdone]
      · rwa [getElem?_set_ne (Ne.symm hgf)]

/-- The frame of an offset is the one whose bytes hold it. -/
theorem frameOf_eq (h : Holds lib cc c fs d) (hf : f < fs.length) (hlo : rawAt fs f ≤ off)
    (hhi : off < rawAt fs (f + 1)) : d.frameOf off = f := by
  have hlen : d.frames.length = fs.length := by rw [h.frames, length_map]
  obtain ⟨rest, hsplit⟩ : ∃ rest, List.range (fs.length + 1) = List.range (f + 1) ++ (f + 1) :: rest := by
    obtain ⟨n, hn⟩ := Nat.exists_eq_add_of_le hf
    rw [hn, Nat.add_assoc, range_add, @List.range_succ_eq_map n]
    exact ⟨_, rfl⟩
  have hpos : ∀ i ∈ List.range (f + 1), decide (d.rawOff i ≤ off) = true := by
    intro i hi
    have hle := @rawAt_mono fs i f (Nat.le_of_lt_succ (mem_range.mp hi))
    rw [h.rawOff, decide_eq_true_eq]
    omega
  have hneg : decide (d.rawOff (f + 1) ≤ off) = false := by
    rw [h.rawOff, decide_eq_false_iff_not]
    omega
  rw [DictLazy.frameOf, hlen, hsplit, takeWhile_append_of_pos hpos,
    takeWhile_cons_of_neg (by rw [hneg]; decide), append_nil, length_range]
  rfl

theorem imageOffs_append (lo : Nat) (xs ys : List (List UInt8)) :
    imageOffs lo (xs ++ ys) = imageOffs lo xs ++ imageOffs (lo + imagesLen xs) ys := by
  induction xs generalizing lo with
  | nil => simp [imageOffs, imagesLen]
  | cons s xs ih => rw [cons_append, imageOffs, imageOffs, ih, imagesLen_cons, cons_append, Nat.add_assoc]

/-- Where an image lies among the images from `lo` on. -/
theorem imageOffs_get (hoff : (imageOffs lo strings)[i]? = some off) (hs : strings[i]? = some s) :
    ∃ o, off = lo + o ∧ o + (varlenaImage s).length ≤ imagesLen strings ∧
      Sits (images strings) o (varlenaImage s) := by
  induction strings generalizing lo i with
  | nil => simp at hs
  | cons x strings ih =>
    have himages : images (x :: strings) = varlenaImage x ++ images strings := by
      rw [images, map_cons, flatten_cons, images]
    cases i with
    | zero =>
      simp only [imageOffs, getElem?_cons_zero, Option.some.injEq] at hoff hs
      subst hoff hs
      refine ⟨0, rfl, ?_, ?_⟩
      · rw [imagesLen_cons, varlenaImage_length]
        omega
      · exact (sits_self _).append_right _
    | succ =>
      obtain ⟨o, rfl, hle, hsits⟩ := ih hoff hs
      refine ⟨align4 (varlenaImgHdr + x.length) + o, by omega, ?_, ?_⟩
      · rw [imagesLen_cons]
        omega
      · rw [← varlenaImage_length]
        have := (sits_self (varlenaImage x ++ images strings)).right.trans hsits
        rwa [Nat.zero_add] at this

/-- Frames hold whole entries: the image of an entry lies inside one frame. -/
theorem entry_inside {groups : List (List (List UInt8))} {lo : Nat}
    (hoff : (imageOffs lo groups.flatten)[i]? = some off) (hs : groups.flatten[i]? = some s) :
    ∃ f, f < groups.length ∧ lo + entryOff (groups.map images) f ≤ off ∧
      off + (varlenaImage s).length ≤ lo + entryOff (groups.map images) (f + 1) := by
  induction groups generalizing lo i with
  | nil => simp at hs
  | cons group groups ih =>
    rw [flatten_cons, imageOffs_append] at hoff
    rw [flatten_cons] at hs
    have hhead : entryOff ((group :: groups).map images) 1 = imagesLen group := by
      simp [entryOff]
    rcases Nat.lt_or_ge i group.length with hlt | hge
    · rw [getElem?_append_left (by rwa [imageOffs_length])] at hoff
      rw [getElem?_append_left hlt] at hs
      obtain ⟨o, rfl, hle, -⟩ := imageOffs_get hoff hs
      refine ⟨0, Nat.succ_pos _, ?_, ?_⟩
      · simp [entryOff]
      · rw [hhead]
        omega
    · rw [getElem?_append_right (by rwa [imageOffs_length]), imageOffs_length] at hoff
      rw [getElem?_append_right hge] at hs
      obtain ⟨f, hf, hlo, hhi⟩ := ih hoff hs
      have hsucc : ∀ n, entryOff ((group :: groups).map images) (n + 1) =
          imagesLen group + entryOff (groups.map images) n := by
        simp [entryOff]
      refine ⟨f + 1, Nat.succ_lt_succ hf, ?_, ?_⟩
      · rw [hsucc]
        omega
      · rw [hsucc]
        omega

theorem drop_of_agree {b m : List UInt8} (hlen : off + m.length ≤ b.length)
    (h : ∀ i, i < m.length → b.getD (off + i) 0 = m.getD i 0) : ∃ rest, b.drop off = m ++ rest := by
  have htake : (b.drop off).take m.length = m := by
    apply ext_getElem
    · simp only [length_take, length_drop]
      omega
    · intro i _ hi
      have hget := h i hi
      rw [getD_eq_getElem _ _ (by omega), getD_eq_getElem _ _ hi] at hget
      simp only [getElem_take, getElem_drop]
      exact hget
  rw [← take_append_drop m.length (b.drop off), htake]
  simp

/-- A lazy dictionary over the entries of `order`, in frames of whole entries. -/
structure LazyReady (lib : Compressors) (cc : CodecCtx) (order : List (List UInt8)) (d : DictLazy) : Prop where
  holds : ∃ (c : Codec) (groups : List (List (List UInt8))) (fs : List (List UInt8 × List UInt8)),
    Holds lib cc c fs d ∧ groups.flatten = order ∧ fs.map Prod.fst = groups.map images
  entryOff : d.entryOff = imageOffs 0 order

/-- The image of an entry at `off` lies in a frame that is done. -/
def Covered (fs : List (List UInt8 × List UInt8)) (d : DictLazy) (off : Nat) (s : List UInt8) : Prop :=
  ∃ f : Nat, d.done[f]? = some true ∧ rawAt fs f ≤ off ∧ off + (varlenaImage s).length ≤ rawAt fs (f + 1)

theorem Covered.mono (h : Covered fs d off s)
    (hmono : ∀ g : Nat, d.done[g]? = some true → d'.done[g]? = some true) : Covered fs d' off s := by
  obtain ⟨f, hdone, hlo, hhi⟩ := h
  exact ⟨f, hmono f hdone, hlo, hhi⟩

theorem Holds.total_eq {groups : List (List (List UInt8))} (h : Holds lib cc c fs d)
    (hraws : fs.map Prod.fst = groups.map images) :
    d.rawOff d.frames.length = (images groups.flatten).length := by
  rw [h.rawOff, h.frames, length_map, rawAt, entryOff, ← images_groups hraws, length_flatten,
    ← length_map Prod.fst, take_length]

theorem entry_eq {groups : List (List (List UInt8))} (h : Holds lib cc c fs d)
    (hraws : fs.map Prod.fst = groups.map images) (hentry : d.entryOff = imageOffs 0 groups.flatten)
    (hsize : s.length + 4 < 2 ^ 30) (hs : groups.flatten[code]? = some s)
    (hoff : (imageOffs 0 groups.flatten)[code]? = some off) (hcov : Covered fs d off s) :
    ∃ p, d.entry code = some p ∧ varlenaBytes p = .ok s := by
  obtain ⟨f, hdone, hlo, hhi⟩ := hcov
  obtain ⟨o, ho, hle, hsits⟩ := imageOffs_get hoff hs
  rw [Nat.zero_add] at ho
  subst ho
  have hblob := images_groups hraws
  have htotal := h.total_eq hraws
  have hend : off + (varlenaImage s).length ≤ (images groups.flatten).length := hsits.length_le
  have hagree : ∀ i, i < (varlenaImage s).length →
      (memBytes d.mem (images groups.flatten).length).getD (off + i) 0 = (varlenaImage s).getD i 0 := by
    intro i hi
    rw [← hsits.getD hi, ← hblob, h.ready f hdone (off + i) (by omega) (by omega),
      getD_eq_getElem _ _ (by rw [memBytes_length, hblob]; omega)]
    simp [memBytes]
  obtain ⟨rest, hrest⟩ := drop_of_agree (by rw [memBytes_length]; exact hend) hagree
  refine ⟨.ptr ((memBytes d.mem (images groups.flatten).length).drop off), ?_, ?_⟩
  · simp [DictLazy.entry, hentry, hoff, htotal]
  · rw [hrest]
    exact varlenaBytes_image hsize rest

theorem Holds.done_of_all (h : Holds lib cc c fs d) (hall : d.allDone = true) (hf : f < fs.length) :
    d.done[f]? = some true := by
  have hlt : f < d.done.length := by rwa [h.done_length]
  rw [getElem?_eq_getElem hlt]
  exact congrArg some (all_eq_true.mp hall _ (getElem_mem hlt))

/-- An entry can be read once its code is ensured, whatever was ensured before. -/
theorem ensureCode_eq {groups : List (List (List UInt8))} (hinv : lib.Inverse)
    (hd : Holds lib cc c fs d) (hraws : fs.map Prod.fst = groups.map images)
    (hentry : d.entryOff = imageOffs 0 groups.flatten) (hs : groups.flatten[code]? = some s)
    (hoff : (imageOffs 0 groups.flatten)[code]? = some off) :
    ∃ d', d.ensureCode lib code = some d' ∧ Holds lib cc c fs d' ∧ Covered fs d' off s ∧
      d'.entryOff = d.entryOff ∧ ∀ g : Nat, d.done[g]? = some true → d'.done[g]? = some true := by
  obtain ⟨f, hf, hlo, hhi⟩ := entry_inside hoff hs
  have hcount : fs.length = groups.length := by
    have := congrArg List.length hraws
    rwa [length_map, length_map] at this
  rw [← hcount] at hf
  rw [Nat.zero_add, ← hraws] at hlo hhi
  by_cases hall : d.allDone = true
  · have hcov : Covered fs d off s := ⟨f, hd.done_of_all hall hf, hlo, hhi⟩
    exact ⟨d, by rw [DictLazy.ensureCode, if_pos hall], hd, hcov, rfl, fun _ hg => hg⟩
  · have hpos : 0 < (varlenaImage s).length := by
      rw [varlenaImage_length]
      exact Nat.lt_of_lt_of_le (by decide) (image_bounds s).1
    have hframe := frameOf_eq hd hf hlo (by rw [rawAt]; omega)
    obtain ⟨d', hd', hholds, hdone, heq, hmono⟩ := ensureFrame_eq hinv hd hf
    refine ⟨d', ?_, hholds, ⟨f, hdone, hlo, hhi⟩, heq, hmono⟩
    simp [DictLazy.ensureCode, hall, hentry, hoff, hframe, hd']

/-- A code is read right after its frame is ensured, in whatever order codes come. -/
theorem lazy_value (hinv : lib.Inverse) (hsized : Sized order) (h : LazyReady lib cc order d)
    (hs : order[code]? = some s) :
    ∃ d', DictTable.value lib code (.lazy d) = some (.ok s, .lazy d') ∧ LazyReady lib cc order d' := by
  obtain ⟨⟨c, groups, fs, hd, rfl, hraws⟩, hentry⟩ := h
  obtain ⟨hcode, -⟩ := List.getElem?_eq_some_iff.mp hs
  have hlen : code < (imageOffs 0 groups.flatten).length := by rwa [imageOffs_length]
  have hoff := getElem?_eq_getElem hlen
  obtain ⟨d', hd', hholds, hcov, heq, -⟩ := ensureCode_eq hinv hd hraws hentry hs hoff
  obtain ⟨p, hp, hok⟩ := entry_eq hholds hraws (heq.trans hentry) (hsized s (mem_of_getElem? hs)) hs hoff hcov
  refine ⟨d', ?_, ⟨c, groups, fs, hholds, rfl, hraws⟩, heq.trans hentry⟩
  simp [DictTable.value, hd', hp, hok]

end Ensure

section Values

variable {lib : Compressors} {cc : CodecCtx}

/-- A published table that stands for the entries of `order`. -/
inductive TableReady (lib : Compressors) (cc : CodecCtx) (order : List (List UInt8)) : DictTable → Prop
  | eager {dict : List Datum} (h : dict.map varlenaBytes = order.map .ok) : TableReady lib cc order (.eager dict)
  | lazy {d : DictLazy} (h : LazyReady lib cc order d) : TableReady lib cc order (.lazy d)

theorem value_eq (hinv : lib.Inverse) (hsized : Sized order) (ht : TableReady lib cc order t)
    (hs : order[code]? = some s) :
    ∃ t', t.value lib code = some (.ok s, t') ∧ TableReady lib cc order t' := by
  cases ht with
  | @eager dict h =>
    have hget : (dict.map varlenaBytes)[code]? = some (.ok s) := by
      rw [h, getElem?_map, hs, Option.map_some]
    rw [getElem?_map] at hget
    obtain ⟨p, hp, hok⟩ := Option.map_eq_some_iff.mp hget
    refine ⟨.eager dict, ?_, .eager h⟩
    simp [DictTable.value, hp, hok]
  | lazy h =>
    obtain ⟨d', hd', hready⟩ := lazy_value hinv hsized h hs
    exact ⟨.lazy d', hd', .lazy hready⟩

theorem values_eq (hinv : lib.Inverse) (hsized : Sized order) {codes : List Nat}
    {rows : List (List UInt8)} (hrows : codes.map (fun c => order[c]?) = rows.map some)
    (ht : TableReady lib cc order t) :
    ∃ t', DictTable.values lib codes t = some (rows.map .ok, t') ∧ TableReady lib cc order t' := by
  induction codes generalizing rows t with
  | nil =>
    cases rows with
    | nil => exact ⟨t, rfl, ht⟩
    | cons => cases hrows
  | cons code codes ih =>
    cases rows with
    | nil => cases hrows
    | cons =>
      simp only [map_cons, List.cons.injEq] at hrows
      obtain ⟨t', hval, ht'⟩ := value_eq hinv hsized ht hrows.1
      obtain ⟨t'', hvals, ht''⟩ := ih hrows.2 ht'
      refine ⟨t'', ?_, ht''⟩
      simp [DictTable.values, hval, hvals]

end Values

section Table

variable {lib : Compressors} {cc : CodecCtx}

section

variable (h : DictShown lib cc strings stored v)
include h

/-- Nothing is done when the lazy table is published, so nothing is promised yet. -/
theorem buildDictLazy_eq (hframed : stored.framed = true) (arena : Lz4dec.Mem) :
    ∃ d, buildDictLazy v arena = some d ∧ LazyReady lib cc (sortedDict (dictPass strings).order) d := by
  have hr := h.reads
  have hv := h.shows
  have hfit := h.fit
  rw [← images_length] at hfit
  cases h.spec with
  | plain | single => cases hframed
  | @framed c groups fs pad hc hgroups hne hraws hall =>
    have hblob := images_groups hraws
    rw [hgroups] at hblob
    have hcount := length_lt_of_groups hgroups hne hraws hfit
    have hparse := @parseFramedDict_eq lib cc c fs _ pad hblob hall hcount hfit
    have hcodec : v.hdr.frameCodec = c := frameCodec_of_codec hv.codec hc
    refine ⟨{ mem := arena, frames := fs.map (fun f => (f.1.length, f.2.length))
              src := (framedRegion (framesOfPairs fs) ++ pad).drop (4 + fs.length * 8)
              codec := c, entryOff := imageOffs 0 (sortedDict (dictPass strings).order)
              done := List.replicate fs.length false }, ?_, ⟨c, groups, fs, ?_, hgroups, hraws⟩, rfl⟩
    · have hoffs := leNat_imageOffs (by rwa [← images_length])
      simp only [buildDictLazy, hv.payload, hv.nrows, hr.ndv, hr.width, hr.offTab, hr.room, if_false,
        hr.blob, hparse, hr.lanes, hcodec, hoffs, length_map, some_bind]
    · refine ⟨rfl, framedRegion_sits fs pad, rfl, hall, ?_, length_replicate .., ?_⟩
      · rw [hblob]
        exact hfit
      · intro f hf
        rw [getElem?_replicate] at hf
        split at hf <;> cases hf

theorem isFramed_eq : isFramed v = stored.framed := by
  have henc : v.hdr.encoding = stored.encoding := h.shows.encoding
  have hflags : v.hdr.flags =
      chunkFlagDictSorted ||| (if stored.framed then chunkFlagDictFramed else 0) := h.shows.flags
  rw [isFramed, henc, hflags]
  cases h.spec with
  | plain => rfl
  | single | framed => simp [chunkFlagDictSorted, chunkFlagDictFramed]

theorem buildTable_eq (lazyRead : Bool) (arena : Lz4dec.Mem)
    (ht : t = .empty ∨ TableReady lib cc (sortedDict (dictPass strings).order) t) :
    ∃ t' arena', buildTable lib v lazyRead arena t = some (t', arena') ∧
      TableReady lib cc (sortedDict (dictPass strings).order) t' := by
  rcases ht with rfl | ht
  · rw [buildTable, isFramed_eq h]
    cases hmode : stored.framed && lazyRead with
    | true =>
      obtain ⟨hframed, -⟩ := (Bool.and_eq_true _ _).mp hmode
      obtain ⟨d, hd, hready⟩ := buildDictLazy_eq h hframed arena
      exact ⟨.lazy d, arena, by rw [hd]; rfl, .lazy hready⟩
    | false =>
      obtain ⟨st, hst, hdict⟩ := buildDict_eq h ⟨[], arena⟩ (.inl rfl)
      exact ⟨.eager st.dict, st.arena, by rw [hst]; rfl, .eager hdict⟩
  · refine ⟨t, arena, ?_, ht⟩
    cases ht <;> rfl

theorem isDict_eq : v.isDict = true := by
  have henc : v.hdr.encoding = stored.encoding := h.shows.encoding
  rw [ChunkView.isDict, henc]
  cases h.spec <;> rfl

/-- A dictionary granule read through its codes. -/
theorem readGranule_dict (lazyRead : Bool) (hg : g < granuleCount strings.length) (arena : Lz4dec.Mem)
    (ht : t = .empty ∨ TableReady lib cc (sortedDict (dictPass strings).order) t) :
    ∃ t' arena', readGranule lib v lazyRead g t arena = some ((granuleSlice strings g).map .ok, t', arena') ∧
      (t' = .empty ∨ TableReady lib cc (sortedDict (dictPass strings).order) t') := by
  obtain ⟨t', arena', hbuild, ht'⟩ := buildTable_eq h lazyRead arena ht
  obtain ⟨t'', hvals, ht''⟩ := values_eq h.inverse (sortedDict_sized h.sized) (granule_rows strings g) ht'
  refine ⟨t'', arena', ?_, .inr ht''⟩
  simp [readGranule, decodeGranuleCodes, isDict_eq h, hbuild, ColumnarIntRoundTrip.granuleRows_eq h.shows.nrows hg, granuleCodes_eq h hg,
    hvals]

end

/-- A granule without a dictionary is read through its pointers. -/
theorem readGranule_pointers (hv : v.isDict = false) (lazyRead : Bool) (g : Nat) (arena : Lz4dec.Mem) (t) :
    readGranule lib v lazyRead g t arena =
      (v.decodeGranule lib g ⟨[], arena⟩).map (fun r => (r.1.map varlenaBytes, t, r.2.arena)) := by
  simp only [readGranule, decodeGranuleCodes, hv]
  cases v.decodeGranule lib g ⟨[], arena⟩ <;> rfl

theorem readFrom_eq {lazyRead : Bool} {P : DictTable → Prop}
    (hgran : ∀ g t arena, g < granuleCount strings.length → P t → ∃ t' arena',
      readGranule lib v lazyRead g t arena = some ((granuleSlice strings g).map .ok, t', arena') ∧ P t')
    (k g : Nat) (t) (arena : Lz4dec.Mem) (hk : g + k = granuleCount strings.length)
    (ht : P t) :
    readFrom lib v lazyRead k g t arena = some ((strings.drop (g * granuleRows)).map .ok) := by
  induction k generalizing g t arena with
  | zero =>
    have hle := le_granuleCount strings.length
    rw [← hk, Nat.add_zero] at hle
    rw [drop_eq_nil_of_le hle]
    rfl
  | succ k ih =>
    obtain ⟨t', arena', hread, ht'⟩ := hgran g t arena (by omega) ht
    have hrest := ih (g + 1) t' arena' (by omega) ht'
    simp only [readFrom, hread, hrest, some_bind]
    rw [← map_append, ← drop_granule]

end Table

end ColumnarDictLazy
