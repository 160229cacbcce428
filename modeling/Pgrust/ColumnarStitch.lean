import Pgrust.Actors
import Pgrust.ColumnarFormat

/-!
# The part-global dictionary stitch

A column's interner numbers its distinct strings in the order of first appearance
and keeps, for every sealed row group, the map from local codes to those numbers. At
the end the numbers are replaced by byte ranks. The interners are kept inline by the
writer, or dealt to pool threads that each own some columns.
-/
namespace ColumnarStitch

open ByteImage ColumnarFormat List

variable {n t : Nat} {α : Type}

abbrev Dict := List (List UInt8)

/-- `ids` lists the keys of the hash map by insertion; the value of a key is the
number of keys before it, as a `u32`. -/
structure StitchCol where
  ids : Dict
  rgMaps : List (List Nat)
  poisoned : Bool
  deriving DecidableEq, Repr

def StitchCol.new : StitchCol := ⟨[], [], false⟩

def StitchCol.poison (_ : StitchCol) : StitchCol := ⟨[], [], true⟩

def internEntry (acc : Dict × List Nat) (e : List UInt8) : Dict × List Nat :=
  let ids := if e ∈ acc.1 then acc.1 else acc.1 ++ [e]
  (ids, acc.2 ++ [ids.idxOf e % 2 ^ 32])

/-- One sealed row group: its dictionary is interned in local code order; a row group
without one poisons the column. -/
def StitchCol.register (st : StitchCol) (entries : Option Dict) : StitchCol :=
  if st.poisoned then st
  else
    match entries with
    | some entries =>
      let acc := entries.foldl internEntry (st.ids, [])
      { st with ids := acc.1, rgMaps := st.rgMaps ++ [acc.2] }
    | none => st.poison

/-- `rank[id] = r` along the byte-sorted keys. -/
def rankTable (ids : Dict) : List Nat :=
  ((ids.zipIdx.mergeSort (fun a b => decide (a.1 ≤ b.1))).zipIdx.foldl
    (fun rank p => rank.set (p.1.2 % 2 ^ 32) (p.2 % 2 ^ 32)) (List.replicate ids.length 0))

/-- The number of distinct strings, a `usize`, and the stitch blob of every row group. -/
def StitchCol.finalize (st : StitchCol) : Option (Nat × List (List UInt8)) :=
  if st.poisoned ∨ st.ids = [] then none
  else
    let rank := rankTable st.ids
    some (st.ids.length % 2 ^ 64,
      st.rgMaps.map (fun map => (map.map (fun gid => putU32 (rank.getD gid 0))).flatten))

theorem finalize_blobs {st : StitchCol} {blobs : List (List UInt8)} (h : st.finalize = some (n, blobs)) :
    blobs.length = st.rgMaps.length := by
  rw [StitchCol.finalize] at h
  split_ifs at h
  cases h
  rw [length_map]

/-- A finalized column: its index, the distinct count, the blobs. -/
abbrev Finalized := Nat × Nat × List (List UInt8)

def finalizeCols (cols : List (Nat × StitchCol)) : List Finalized :=
  cols.filterMap (fun p => p.2.finalize.map (fun f => (p.1, f)))

/-- `sort_by_key` on the column. -/
def sortByCol (fs : List Finalized) : List Finalized := fs.mergeSort (fun a b => decide (a.1 ≤ b.1))

structure StitchMsg where
  col : Nat
  entries : Option Dict
  deriving DecidableEq, Repr

def StitchMsg.apply (m : StitchMsg) (p : Nat × StitchCol) : Nat × StitchCol :=
  if p.1 = m.col then (p.1, p.2.register m.entries) else p

/-- One round of the receive loop: a message for a column the thread does not own is
passed over. -/
def recvMsg (cols : List (Nat × StitchCol)) (m : StitchMsg) : List (Nat × StitchCol) := cols.map m.apply

/-- What a thread returns once its mailbox is closed and drained. -/
def threadResult (cols : List (Nat × StitchCol)) : List Finalized := sortByCol (finalizeCols cols)

/-- What the leader makes of the joined threads. -/
def joinResults (threads : List (List (Nat × StitchCol))) : List Finalized :=
  sortByCol (threads.flatMap threadResult)

/-- The columns that have an interner, with their indices. -/
def liveFrom (c : Nat) : List (Option StitchCol) → List (Nat × StitchCol)
  | [] => []
  | none :: cols => liveFrom (c + 1) cols
  | some st :: cols => (c, st) :: liveFrom (c + 1) cols

/-- Live columns are dealt to the threads in turn. -/
def dealFrom (n next : Nat) : List (Option StitchCol) → List (Option Nat)
  | [] => []
  | none :: cols => none :: dealFrom n next cols
  | some _ :: cols => some (next % n) :: dealFrom n (next + 1) cols

/-- The columns thread `t` owns at the start. -/
def ownedBy (assign : List (Option Nat)) (cols : List (Option StitchCol)) (t : Nat) : List (Nat × StitchCol) :=
  (liveFrom 0 cols).filter (fun p => assign[p.1]? = some (some t))

/-- The messages of one commit: every column that a thread owns, in order. -/
def stitchSends (assign : List (Option Nat)) (dicts : List (Option Dict)) : List (Nat × StitchMsg) :=
  (List.range assign.length).filterMap (fun c => (assign.getD c none).map (fun t => (t, ⟨c, dicts.getD c none⟩)))

/-- The inline registration of one sealed row group. -/
def registerStitch (cols : List (Option StitchCol)) (dicts : List (Option Dict)) : List (Option StitchCol) :=
  cols.mapIdx (fun c st => st.map (·.register (dicts.getD c none)))

@[simp] theorem StitchMsg.apply_fst (m : StitchMsg) (p : Nat × StitchCol) : (m.apply p).1 = p.1 := by
  simp only [StitchMsg.apply]
  split_ifs <;> rfl

/-- The indices of live columns ascend. -/
theorem liveFrom_sorted (c : Nat) (cols : List (Option StitchCol)) :
    ((liveFrom c cols).Pairwise (fun a b => a.1 < b.1)) ∧ ∀ p ∈ liveFrom c cols, c ≤ p.1 := by
  induction cols generalizing c with
  | nil => simp [liveFrom]
  | cons st cols ih =>
    obtain ⟨hsorted, hle⟩ := ih (c + 1)
    cases st with
    | none => exact ⟨hsorted, fun p hp => Nat.le_of_succ_le (hle p hp)⟩
    | some =>
      refine ⟨pairwise_cons.mpr ⟨hle, hsorted⟩, ?_⟩
      intro p hp
      cases hp with
      | head => exact Nat.le_refl c
      | tail _ hp => exact Nat.le_of_succ_le (hle p hp)

/-- A list with ascending columns is what sorting any of its permutations gives. -/
theorem sortByCol_of_perm {fs gs : List Finalized} (hperm : fs.Perm gs)
    (hsorted : gs.Pairwise (fun a b => a.1 < b.1)) : sortByCol fs = gs := by
  have hfs : (sortByCol fs).Pairwise (fun a b => decide (a.1 ≤ b.1) = true) :=
    pairwise_mergeSort (by simp; omega) (by simp; omega) fs
  have hgs : gs.Pairwise (fun a b => decide (a.1 ≤ b.1) = true) := hsorted.imp (by simp; omega)
  have hall : (sortByCol fs).Perm gs := (mergeSort_perm fs _).trans hperm
  have hkeys : (gs.map Prod.fst).Nodup := pairwise_map.mpr (hsorted.imp (fun h => Nat.ne_of_lt h))
  apply List.Perm.eq_of_pairwise _ hfs hgs hall
  intro a b ha hb hab hba
  simp only [decide_eq_true_eq] at hab hba
  exact inj_on_of_nodup_map hkeys (hall.mem_iff.mp ha) hb (Nat.le_antisymm hab hba)

theorem finalizeCols_sorted (h : cols.Pairwise (fun a b => a.1 < b.1)) :
    (finalizeCols cols).Pairwise (fun a b => a.1 < b.1) := by
  apply List.Pairwise.filterMap _ _ h
  intro p q hpq f hf g hg
  obtain ⟨x, -, rfl⟩ := Option.map_eq_some_iff.mp hf
  obtain ⟨y, -, rfl⟩ := Option.map_eq_some_iff.mp hg
  exact hpq

theorem flatMap_perm {β : Type} {f g : α → List β} (l : List α) (h : ∀ a, (f a).Perm (g a)) :
    (l.flatMap f).Perm (l.flatMap g) := List.Perm.flatMap_left l (fun a _ => h a)

/-- Joining the threads gives the columns in order, however they were dealt. -/
theorem joinResults_eq {cols : List (Option StitchCol)} (hperm : threads.flatten.Perm (liveFrom 0 cols)) :
    joinResults threads = finalizeCols (liveFrom 0 cols) := by
  apply sortByCol_of_perm _ (finalizeCols_sorted (liveFrom_sorted 0 cols).1)
  have hsort : (threads.flatMap threadResult).Perm (threads.flatMap finalizeCols) :=
    flatMap_perm threads (fun t => mergeSort_perm (finalizeCols t) _)
  have hflat : threads.flatMap finalizeCols = finalizeCols threads.flatten := by
    simp only [finalizeCols, filterMap_flatten]
    rfl
  rw [hflat] at hsort
  exact hsort.trans (hperm.filterMap _)

/-- A list is what its classes make together. -/
theorem flatMap_classes_perm (f : α → Nat) (n : Nat) (l : List α) (h : ∀ a ∈ l, f a < n) :
    ((List.range n).flatMap (fun t => l.filter (f · = t))).Perm l := by
  induction n generalizing l with
  | zero =>
    cases l with
    | nil => simp
    | cons a => exact absurd (h a (by simp)) (by omega)
  | succ n ih =>
    have hlow := ih (l.filter (f · < n)) (fun a ha => by simpa using (mem_filter.mp ha).2)
    have hclasses : (List.range n).flatMap (fun t => (l.filter (f · < n)).filter (f · = t)) =
        (List.range n).flatMap (fun t => l.filter (f · = t)) := by
      apply flatMap_congr
      intro t ht
      rw [filter_filter]
      apply filter_congr
      intro a _
      have := mem_range.mp ht
      by_cases hat : f a = t <;> simp [hat, this]
    have htop : l.filter (f · = n) = l.filter (fun a => !decide (f a < n)) := by
      apply filter_congr
      intro a ha
      have := h a ha
      simp only [← decide_not, decide_eq_decide]
      omega
    rw [hclasses] at hlow
    rw [range_succ, flatMap_append, flatMap_singleton, htop]
    exact (hlow.append_right _).trans (filter_append_perm _ l)

theorem liveFrom_mapIdx (g : Nat → StitchCol → StitchCol) (c : Nat) (cols : List (Option StitchCol)) :
    liveFrom c (cols.mapIdx (fun i st => st.map (g (c + i)))) =
      (liveFrom c cols).map (fun p => (p.1, g p.1 p.2)) := by
  induction cols generalizing c with
  | nil => rfl
  | cons st cols ih =>
    have hshift : (fun i (st : Option StitchCol) => st.map (g (c + (i + 1)))) =
        fun i st => st.map (g (c + 1 + i)) := by
      funext i st
      rw [Nat.add_right_comm, Nat.add_assoc]
    cases st <;> simp [liveFrom, hshift, ih]

section Pool

variable {assign : List (Option Nat)}

/-- Every thread keeps columns that are assigned to it. -/
def Owned (assign : List (Option Nat)) (threads : List (List (Nat × StitchCol))) : Prop :=
  ∀ (t : Nat) (cols : List (Nat × StitchCol)), threads[t]? = some cols → ∀ p ∈ cols, assign[p.1]? = some (some t)

theorem recvMsg_of_not_owned (h : ∀ p ∈ cols, p.1 ≠ m.col) : recvMsg cols m = cols := by
  have hid : cols.map m.apply = cols.map id := by
    apply map_congr_left
    intro p hp
    rw [StitchMsg.apply, if_neg (h p hp), id]
  rw [recvMsg, hid, map_id]

/-- A message for its owner is a message for everyone. -/
theorem Owned.modify_eq (h : Owned assign threads) (hm : assign[m.col]? = some (some t)) :
    threads.modify t (recvMsg · m) = threads.map (recvMsg · m) := by
  apply ext_getElem?
  intro i
  rw [getElem?_modify, getElem?_map]
  cases hi : threads[i]? with
  | none => rfl
  | some cols =>
    by_cases ht : t = i
    · simp [ht]
    · have hother : recvMsg cols m = cols := by
        apply recvMsg_of_not_owned
        intro p hp hcol
        have := h i cols hi p hp
        rw [hcol, hm] at this
        simp only [Option.some.injEq] at this
        exact ht this
      simp [hother]

theorem Owned.map_recvMsg (h : Owned assign threads) (m : StitchMsg) :
    Owned assign (threads.map (recvMsg · m)) := by
  intro t cols hcols p hp
  rw [getElem?_map] at hcols
  obtain ⟨cols₀, hcols₀, rfl⟩ := Option.map_eq_some_iff.mp hcols
  obtain ⟨q, hq, rfl⟩ := mem_map.mp hp
  rw [StitchMsg.apply_fst]
  exact h t cols₀ hcols₀ q hq

/-- The sends of one commit, each handled at once, reach every thread's columns. -/
theorem settle_sends {L : Type} (sends : List (Nat × StitchMsg)) (h : Owned assign threads)
    (hsends : ∀ s ∈ sends, assign[s.2.col]? = some (some s.1) ∧ s.1 < threads.length)
    (rest : List (Actors.Action L StitchMsg)) (l : L) :
    Actors.settle recvMsg (sends.map (fun s => .send s.1 s.2) ++ rest) l threads =
      Actors.settle recvMsg rest l (threads.map (fun cols => (sends.map Prod.snd).foldl recvMsg cols)) := by
  induction sends generalizing threads with
  | nil => simp
  | cons s sends ih =>
    obtain ⟨hs, ht⟩ := hsends s (by simp)
    rw [map_cons, cons_append, Actors.settle, if_pos ht, h.modify_eq hs, ih (h.map_recvMsg s.2) (fun s' hs' => by
        rw [length_map]
        exact hsends s' (mem_cons_of_mem _ hs')), map_map]
    rfl

theorem foldl_recvMsg (ms : List StitchMsg) (cols : List (Nat × StitchCol)) :
    ms.foldl recvMsg cols = cols.map (fun p => ms.foldl (fun p m => m.apply p) p) := by
  induction ms generalizing cols with
  | nil => simp
  | cons m ms ih =>
    rw [foldl_cons, ih, recvMsg, map_map]
    rfl

theorem foldl_apply_of_not_mem (ms : List StitchMsg) (p : Nat × StitchCol)
    (h : p.1 ∉ ms.map StitchMsg.col) : ms.foldl (fun p m => m.apply p) p = p := by
  induction ms with
  | nil => rfl
  | cons m ms ih =>
    simp only [map_cons, mem_cons, not_or] at h
    rw [foldl_cons, StitchMsg.apply, if_neg h.1, ih h.2]

/-- Of messages for different columns a column takes its own. -/
theorem foldl_apply_of_mem {ms : List StitchMsg} (hnodup : (ms.map StitchMsg.col).Nodup) (hm : m ∈ ms)
    (p : Nat × StitchCol) (hp : p.1 = m.col) :
    ms.foldl (fun p m => m.apply p) p = (p.1, p.2.register m.entries) := by
  induction ms generalizing p with
  | nil => cases hm
  | cons m' ms ih =>
    rw [map_cons, nodup_cons] at hnodup
    cases hm with
    | head =>
      rw [foldl_cons, StitchMsg.apply, if_pos hp]
      apply foldl_apply_of_not_mem
      rw [hp]
      exact hnodup.1
    | tail _ hm =>
      have hne : p.1 ≠ m'.col := by
        intro h
        apply hnodup.1
        rw [← h, hp]
        exact mem_map_of_mem hm
      rw [foldl_cons, StitchMsg.apply, if_neg hne]
      exact ih hnodup.2 hm p hp

/-- The threads hold between them the interners the writer would keep inline. -/
structure Holds (assign : List (Option Nat)) (threads : List (List (Nat × StitchCol)))
    (cols : List (Option StitchCol)) : Prop where
  owned : Owned assign threads
  bound : ∀ (c t : Nat), assign[c]? = some (some t) → t < threads.length
  perm : threads.flatten.Perm (liveFrom 0 cols)

theorem mem_stitchSends {dicts : List (Option Dict)} {s : Nat × StitchMsg} :
    s ∈ stitchSends assign dicts ↔ assign[s.2.col]? = some (some s.1) ∧ s.2.entries = dicts.getD s.2.col none := by
  obtain ⟨t, c, entries⟩ := s
  simp only [stitchSends, mem_filterMap, mem_range, Option.map_eq_some_iff, Prod.mk.injEq, StitchMsg.mk.injEq]
  constructor
  · rintro ⟨c', hc, t', ht, rfl, rfl, rfl⟩
    rw [getD_eq_getElem _ _ hc] at ht
    exact ⟨by rw [getElem?_eq_getElem hc, ht], rfl⟩
  · rintro ⟨hc, rfl⟩
    obtain ⟨hlt, hget⟩ := List.getElem?_eq_some_iff.mp hc
    exact ⟨c, hlt, t, by rw [getD_eq_getElem _ _ hlt, hget], rfl, rfl, rfl⟩

theorem stitchSends_nodup (dicts : List (Option Dict)) :
    (((stitchSends assign dicts).map Prod.snd).map StitchMsg.col).Nodup := by
  rw [map_map]
  apply pairwise_map.mpr
  apply List.Pairwise.filterMap _ _ nodup_range
  intro c c' hne s hs s' hs'
  obtain ⟨t, -, rfl⟩ := Option.map_eq_some_iff.mp hs
  obtain ⟨t', -, rfl⟩ := Option.map_eq_some_iff.mp hs'
  exact hne

/-- One commit: the sends leave the threads with what inline registration gives. -/
theorem Holds.commit {cols : List (Option StitchCol)} (h : Holds assign threads cols) (dicts : List (Option Dict)) :
    ∃ threads', Holds assign threads' (registerStitch cols dicts) ∧
      ∀ {L : Type} (rest : List (Actors.Action L StitchMsg)) (l : L),
        Actors.settle recvMsg ((stitchSends assign dicts).map (fun s => .send s.1 s.2) ++ rest) l
          threads = Actors.settle recvMsg rest l threads' := by
  let ms := (stitchSends assign dicts).map Prod.snd
  have hsends : ∀ s ∈ stitchSends assign dicts, assign[s.2.col]? = some (some s.1) ∧ s.1 < threads.length := by
    intro s hs
    have := (mem_stitchSends.mp hs).1
    exact ⟨this, h.bound _ _ this⟩
  have hfold : ∀ p ∈ threads.flatten, ms.foldl (fun p m => m.apply p) p =
      (p.1, p.2.register (dicts.getD p.1 none)) := by
    intro p hp
    obtain ⟨owned, howned, hp⟩ := mem_flatten.mp hp
    obtain ⟨t, ht⟩ := mem_iff_getElem?.mp howned
    have hmem : (t, StitchMsg.mk p.1 (dicts.getD p.1 none)) ∈ stitchSends assign dicts :=
      mem_stitchSends.mpr ⟨h.owned t owned ht p hp, rfl⟩
    exact foldl_apply_of_mem (stitchSends_nodup dicts) (mem_map_of_mem hmem) p rfl
  refine ⟨threads.map (fun cols => ms.foldl recvMsg cols), ⟨?_, ?_, ?_⟩,
    fun rest l => settle_sends _ h.owned hsends rest l⟩
  · intro t owned ht p hp
    rw [getElem?_map] at ht
    obtain ⟨owned₀, howned₀, rfl⟩ := Option.map_eq_some_iff.mp ht
    rw [foldl_recvMsg] at hp
    obtain ⟨q, hq, rfl⟩ := mem_map.mp hp
    have hq' : q ∈ threads.flatten := mem_flatten.mpr ⟨_, mem_of_getElem? howned₀, hq⟩
    rw [hfold q hq']
    exact h.owned t owned₀ howned₀ q hq
  · intro c t hc
    rw [length_map]
    exact h.bound c t hc
  · have hflat : (threads.map (fun cols => ms.foldl recvMsg cols)).flatten =
        threads.flatten.map (fun p => (p.1, p.2.register (dicts.getD p.1 none))) := by
      have hmap : (fun cols => ms.foldl recvMsg cols) =
          List.map (fun p => ms.foldl (fun p m => m.apply p) p) := funext (foldl_recvMsg ms)
      rw [hmap, ← map_flatten]
      exact map_congr_left hfold
    have hlive := liveFrom_mapIdx (fun c st => st.register (dicts.getD c none)) 0 cols
    simp only [Nat.zero_add] at hlive
    rw [hflat, registerStitch, hlive]
    exact h.perm.map _

/-- Every live column is dealt to one of the threads. -/
theorem dealFrom_live (n c next : Nat) (cols : List (Option StitchCol)) :
    ∀ p ∈ liveFrom c cols, ∃ t, (dealFrom n next cols)[p.1 - c]? = some (some t) := by
  induction cols generalizing c next with
  | nil => simp [liveFrom]
  | cons st cols ih =>
    have htail : ∀ next', ∀ p ∈ liveFrom (c + 1) cols, ∀ a,
        ∃ t, (a :: dealFrom n next' cols)[p.1 - c]? = some (some t) := by
      intro next' p hp a
      obtain ⟨t, ht⟩ := ih (c + 1) next' p hp
      have hle := (liveFrom_sorted (c + 1) cols).2 p hp
      have hsub : p.1 - c = p.1 - (c + 1) + 1 := by omega
      exact ⟨t, by rw [hsub, getElem?_cons_succ, ht]⟩
    cases st with
    | none =>
      intro p hp
      exact htail next p hp none
    | some =>
      intro p hp
      cases hp with
      | head => exact ⟨next % n, by simp [dealFrom]⟩
      | tail _ hp => exact htail (next + 1) p hp _

theorem dealFrom_lt (hn : 0 < n) (next : Nat) (cols : List (Option StitchCol)) {c : Nat}
    (h : (dealFrom n next cols)[c]? = some (some t)) : t < n := by
  induction cols generalizing next c with
  | nil => simp [dealFrom] at h
  | cons st cols ih =>
    cases c with
    | zero =>
      cases st with
      | none => simp [dealFrom] at h
      | some =>
        simp only [dealFrom, getElem?_cons_zero, Option.some.injEq] at h
        rw [← h]
        exact Nat.mod_lt _ hn
    | succ =>
      cases st with
      | none => exact ih next (by simpa [dealFrom] using h)
      | some => exact ih (next + 1) (by simpa [dealFrom] using h)

/-- The interners as they are dealt when the pool is installed. -/
theorem holds_dealt (hn : 0 < n) (cols : List (Option StitchCol)) :
    Holds (dealFrom n 0 cols) ((List.range n).map (ownedBy (dealFrom n 0 cols) cols)) cols where
  owned := by
    intro t owned ht p hp
    rw [getElem?_map] at ht
    obtain ⟨t', ht', rfl⟩ := Option.map_eq_some_iff.mp ht
    obtain ⟨hlt, rfl⟩ := List.getElem?_eq_some_iff.mp ht'
    simpa using (mem_filter.mp hp).2
  bound := by
    intro c t hc
    rw [length_map, length_range]
    exact dealFrom_lt hn 0 cols hc
  perm := by
    let owner : Nat × StitchCol → Nat := fun p => ((dealFrom n 0 cols).getD p.1 none).getD 0
    have howner : ∀ p ∈ liveFrom 0 cols, ∀ t, (dealFrom n 0 cols)[p.1]? = some (some t) ↔ owner p = t := by
      intro p hp t
      obtain ⟨t', ht'⟩ := dealFrom_live n 0 0 cols p hp
      rw [Nat.sub_zero] at ht'
      simp [owner, ht']
    have hclasses := flatMap_classes_perm owner n (liveFrom 0 cols) (fun p hp =>
      dealFrom_lt hn 0 cols ((howner p hp _).mpr rfl))
    have hsame : (List.range n).flatMap (fun t => (liveFrom 0 cols).filter (owner · = t)) =
        (List.range n).flatMap (ownedBy (dealFrom n 0 cols) cols) := by
      apply flatMap_congr
      intro t _
      apply filter_congr
      intro p hp
      simp only [decide_eq_decide]
      exact (howner p hp t).symm
    rw [hsame] at hclasses
    exact hclasses

end Pool

end ColumnarStitch
