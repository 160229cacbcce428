import Pgrust.FreeSpaceMap

/-!
What the free space map answers over whole runs. The pages of the map are seen through their slots:
a block of the map that is not there has zeros for slots, so that extending the map changes nothing.
What a bottom slot holds is the category of the space last recorded for its block, or nothing; the
levels above are bounds only after a vacuum, and a search keeps those bounds it relies on.
-/
namespace FreeSpaceSearch

open FreeSpacePage FreeSpaceMap Nat
open Function (update_self update_of_ne update update_eq_self forall_update_iff)

/-! ### Addresses -/

/-- A page of the map: one root, a page for each of its slots, and so on. -/
def InRange (addr : FSMAddress) : Prop :=
  addr.level ≤ fsmRootLevel ∧ addr.logpageno < slotsPerFsmPage ^ (fsmRootLevel - addr.level)

variable {n leafno level p q slot b value needed avail : Nat} {page : FsmPage}
  {out : Option Nat × Rel}

theorem wrapI32_of_lt (h : n < 2 ^ 31) : wrapI32 n = n := by
  rw [wrapI32, Int.bmod_eq_of_le]
  · omega
  · omega

theorem asU32_of_lt (h : n < 2 ^ 32) : asU32 n = n := by
  rw [asU32]
  omega

theorem countPages_succ (h : leafno + 1 < 2 ^ 31) (hp : pages + (leafno + 1) < 2 ^ 32) :
    countPages (depth + 1) leafno pages =
      countPages depth (leafno / slotsPerFsmPage : Nat) (pages + (leafno + 1)) := by
  have hcast : ((leafno : Int) + 1) = ((leafno + 1 : Nat) : Int) := rfl
  rw [countPages, hcast, wrapI32_of_lt h, asU32_of_lt (by omega), mod_eq_of_lt hp]
  rfl

theorem leafnoOf_succ (h : leafno * slotsPerFsmPage < 2 ^ 31) :
    leafnoOf (level + 1) leafno = leafnoOf level (leafno * slotsPerFsmPage : Nat) := by
  have hcast : ((leafno : Int) * (slotsPerFsmPage : Nat)) = ((leafno * slotsPerFsmPage : Nat) : Int) :=
    (Int.natCast_mul _ _).symm
  rw [leafnoOf, hcast, wrapI32_of_lt h]

/-- The pages on the way to a bottom page, counted. -/
theorem countPages_depth (h : leafno < 4069 * 4069) :
    countPages fsmTreeDepth leafno 0 = leafno + leafno / 4069 + 3 := by
  have hsub : leafno / 4069 < 4069 := by omega
  have htop : leafno / 4069 / 4069 = 0 := div_eq_of_lt hsub
  rw [fsmTreeDepth, countPages_succ (by omega) (by omega), slotsPerFsmPage_eq,
    countPages_succ (by omega) (by omega), slotsPerFsmPage_eq,
    countPages_succ (by omega) (by omega), countPages]
  omega

theorem physical_of_leafno {logpageno : Nat} (hlevel : level ≤ 2)
    (hleaf : leafnoOf level logpageno = leafno) (h : leafno < 4069 * 4069) :
    fsmLogicalToPhysical ⟨level, logpageno⟩ = leafno + leafno / 4069 + 2 - level := by
  simp only [fsmLogicalToPhysical, hleaf]
  rw [countPages_depth h]
  omega

theorem physical_bottom (h : p < 4069 * 4069) : fsmLogicalToPhysical ⟨0, p⟩ = p + p / 4069 + 2 :=
  physical_of_leafno (by omega) rfl h

theorem physical_middle (h : q < 4069) : fsmLogicalToPhysical ⟨1, q⟩ = 4070 * q + 1 := by
  have hleaf : leafnoOf 1 q = (q * 4069 : Nat) := by
    rw [leafnoOf_succ (by simp only [slotsPerFsmPage_eq]; omega)]
    rfl
  rw [physical_of_leafno (by omega) hleaf (by omega)]
  omega

theorem physical_root : fsmLogicalToPhysical fsmRootAddress = 0 := by decide

/-- The pages in range. -/
theorem inRange_cases (h : InRange addr) :
    (∃ p, p < 4069 * 4069 ∧ addr = ⟨0, p⟩) ∨ (∃ q, q < 4069 ∧ addr = ⟨1, q⟩) ∨ addr = fsmRootAddress := by
  obtain ⟨level, logpageno⟩ := addr
  obtain ⟨hlevel, hpage⟩ := h
  match level, hlevel, hpage with
  | 0, _, hpage => exact .inl ⟨logpageno, hpage, rfl⟩
  | 1, _, hpage => exact .inr (.inl ⟨logpageno, hpage, rfl⟩)
  | 2, _, hpage =>
    have hzero : logpageno = 0 := lt_one_iff.mp hpage
    subst hzero
    exact .inr (.inr rfl)
  | level + 3, hlevel, _ => exact absurd hlevel (by simp only [fsmRootLevel, fsmTreeDepth]; omega)

/-- Where the pages in range lie. -/
theorem physical_cases {a : FSMAddress} (h : InRange a) :
    (a.level = 0 ∧ fsmLogicalToPhysical a = a.logpageno + a.logpageno / 4069 + 2) ∨
    (a.level = 1 ∧ fsmLogicalToPhysical a = 4070 * a.logpageno + 1) ∨
    (a.level = 2 ∧ a.logpageno = 0 ∧ fsmLogicalToPhysical a = 0) := by
  rcases inRange_cases h with ⟨p, hp, rfl⟩ | ⟨q, hq, rfl⟩ | rfl
  · exact .inl ⟨rfl, physical_bottom hp⟩
  · exact .inr (.inl ⟨rfl, physical_middle hq⟩)
  · exact .inr (.inr ⟨rfl, rfl, physical_root⟩)

/-- Distinct pages lie in distinct blocks of the map. -/
theorem physical_injective {a b : FSMAddress} (ha : InRange a) (hb : InRange b)
    (h : fsmLogicalToPhysical a = fsmLogicalToPhysical b) : a = b := by
  have hcases := physical_cases ha
  have hcases' := physical_cases hb
  have hsame : a.level = b.level ∧ a.logpageno = b.logpageno := by omega
  cases a
  simp_all

/-! ### The slots of the map -/

/-- The slots of a block of the map, zeros where the map does not reach so far. -/
def slotAt (r : Rel) (blk slot : Nat) : Nat := if blk < r.fsmBlocks then fsmGetAvail (r.page blk) slot else 0

/-- What every call leaves behind: whole pages, and cached sizes that are not too large. -/
structure Good (r : Rel) : Prop where
  whole : ∀ blk, blk < r.fsmBlocks → (r.page blk).Whole
  fresh : ∀ blk, blk < r.fsmBlocks → (r.page blk).isNew = true → fsmGetAvail (r.page blk) = fun _ => 0
  absent : r.fsmExists = false → r.fsmBlocks = 0
  fsmCached : ∀ n, r.fsmCached = some n → n ≤ r.fsmBlocks
  mainCached : ∀ n, r.mainCached = some n → n ≤ r.mainBlocks
  main_le : r.mainBlocks ≤ invalidBlockNumber

/-- From `r` to `r'` nothing changed that a slot shows, but in the blocks `touched` of the map. -/
structure Kept (r r' : Rel) (touched : Nat → Prop) : Prop where
  good : Good r'
  main : r'.mainBlocks = r.mainBlocks
  blocks : r.fsmBlocks ≤ r'.fsmBlocks
  isNew : ∀ blk, blk < r.fsmBlocks → (r.page blk).isNew = false → (r'.page blk).isNew = false
  slots : ∀ blk, ¬ touched blk → slotAt r' blk = slotAt r blk

variable {r r' : Rel} {touched : Nat → Prop}

theorem Kept.refl (h : Good r) : Kept r r touched := ⟨h, rfl, le_rfl, fun _ _ h => h, fun _ _ => rfl⟩

theorem Kept.trans (h : Kept r r' touched) (h' : Kept r' r'' touched) : Kept r r'' touched where
  good := h'.good
  main := h'.main.trans h.main
  blocks := h.blocks.trans h'.blocks
  isNew blk hblk hnew := h'.isNew blk (hblk.trans_le h.blocks) (h.isNew blk hblk hnew)
  slots blk hblk := (h'.slots blk hblk).trans (h.slots blk hblk)

theorem Kept.mono {wider : Nat → Prop} (h : Kept r r' touched) (hw : ∀ blk, touched blk → wider blk) :
    Kept r r' wider :=
  { h with
    slots := fun blk hblk => h.slots blk (fun ht => hblk (hw blk ht)) }

theorem slotAt_of_lt (h : blk < r.fsmBlocks) : slotAt r blk = fsmGetAvail (r.page blk) := by
  funext s
  exact if_pos h

theorem slotAt_of_le (h : r.fsmBlocks ≤ blk) : slotAt r blk = fun _ => 0 := by
  funext s
  exact if_neg (Nat.not_lt.mpr h)

/-- A whole page is put in place of another. -/
theorem Good.put (h : Good r) (hblk : blk < r.fsmBlocks) (hwhole : page.Whole) (hnew : page.isNew = false) :
    Kept r (r.setPage blk page) (· = blk) ∧ slotAt (r.setPage blk page) blk = fsmGetAvail page := by
  refine ⟨⟨⟨?_, ?_, h.absent, h.fsmCached, h.mainCached, h.main_le⟩, rfl, le_rfl, ?_, ?_⟩, ?_⟩
  · apply (forall_update_iff r.page fun b p => b < r.fsmBlocks → p.Whole).mpr
    exact ⟨fun _ => hwhole, fun b _ => h.whole b⟩
  · apply (forall_update_iff r.page fun b p => b < r.fsmBlocks → p.isNew = true → fsmGetAvail p = _).mpr
    exact ⟨fun _ hfresh => absurd (hnew.symm.trans hfresh) Bool.false_ne_true, fun b _ => h.fresh b⟩
  · apply (forall_update_iff r.page fun b p => b < r.fsmBlocks → (r.page b).isNew = _ → p.isNew = _).mpr
    exact ⟨fun _ _ => hnew, fun _ _ _ hb => hb⟩
  · intro b hb
    funext s
    rw [slotAt, show (r.setPage blk page).page b = r.page b from update_of_ne hb ..]
    rfl
  · rw [slotAt_of_lt (r := r.setPage blk page) hblk, show (r.setPage blk page).page blk = page from update_self ..]

/-- A page that was written is put back whole. -/
theorem Good.setPage (h : Good r) (hblk : blk < r.fsmBlocks) (hnew : (r.page blk).isNew = false)
    (hpage : Leaves (r.page blk) page slots) :
    Kept r (r.setPage blk page) (· = blk) ∧ slotAt (r.setPage blk page) blk = slots := by
  rw [← hpage.slots]
  exact h.put hblk hpage.whole (hpage.isNew.trans hnew)

theorem Kept.of_same (h : Kept r r' (· = blk)) (hsame : slotAt r' blk = slotAt r blk) :
    Kept r r' (fun _ => False) :=
  { h with
    slots := fun b _ => by
      by_cases hb : b = blk
      · rw [hb]
        exact hsame
      · exact h.slots b hb }

section

variable (h : Good r)
include h

/-- Other cached sizes change nothing. -/
theorem Good.cached {fsmCached mainCached : Option Nat} (hfsm : ∀ n, fsmCached = some n → n ≤ r.fsmBlocks)
    (hmain : ∀ n, mainCached = some n → n ≤ r.mainBlocks) :
    Kept r { r with fsmCached := fsmCached, mainCached := mainCached } (fun _ => False) :=
  ⟨⟨h.whole, h.fresh, h.absent, hfsm, hmain, h.main_le⟩, rfl, le_rfl, fun _ _ h => h, fun _ _ => rfl⟩

/-- Looking up the size of the map changes what is cached alone. -/
theorem Good.fsmSize (blkno : Nat) : ∃ cached, (r.fsmSize blkno).2 = { r with fsmCached := cached } ∧
      Kept r { r with fsmCached := cached } (fun _ => False) ∧
      ((r.fsmSize blkno).1 ≤ blkno ↔ r.fsmBlocks ≤ blkno) := by
  have hfresh : ∀ out, out = (if r.fsmExists then (r.fsmBlocks, { r with fsmCached := some r.fsmBlocks })
        else (0, { r with fsmCached := some 0 })) →
      ∃ cached, out.2 = { r with fsmCached := cached } ∧
        Kept r { r with fsmCached := cached } (fun _ => False) ∧ (out.1 ≤ blkno ↔ r.fsmBlocks ≤ blkno) := by
    rintro _ rfl
    split_ifs with hex
    · exact ⟨some r.fsmBlocks, rfl, h.cached (by simp) h.mainCached, Iff.rfl⟩
    · refine ⟨some 0, rfl, h.cached (by simp) h.mainCached, ?_⟩
      rw [h.absent (Bool.eq_false_iff.mpr hex)]
  simp only [Rel.fsmSize]
  cases hcached : r.fsmCached with
  | none => exact hfresh _ rfl
  | some n =>
    have hn := h.fsmCached n hcached
    by_cases hlt : blkno < n
    · simp only [if_pos hlt]
      refine ⟨r.fsmCached, rfl, .refl h, ?_⟩
      omega
    · simp only [if_neg hlt]
      exact hfresh _ rfl

/-- A page that is read is no new one. -/
theorem Good.initNew (hblk : blk < r.fsmBlocks) :
    Kept r (r.initNew blk) (fun _ => False) ∧ ((r.initNew blk).page blk).isNew = false ∧
      (r.initNew blk).fsmBlocks = r.fsmBlocks := by
  rw [Rel.initNew]
  cases hnew : (r.page blk).isNew with
  | false => exact ⟨.refl h, hnew, rfl⟩
  | true =>
    have hwhole : (r.page blk).init.Whole := init_whole
    obtain ⟨hput, hslots⟩ := h.put hblk hwhole rfl
    refine ⟨hput.of_same (hslots.trans ?_), ?_, rfl⟩
    · rw [slotAt_of_lt hblk, h.fresh blk hblk hnew]
      rfl
    · show (update r.page blk _ blk).isNew = false
      rw [update_self]
      rfl

/-- The map is extended by pages that show no space. -/
theorem Good.extend (n : Nat) : Kept r (fsmExtend r n) (fun _ => False) ∧ n ≤ (fsmExtend r n).fsmBlocks := by
  have hold : ∀ b, b < r.fsmBlocks → (fsmExtend r n).page b = r.page b := by
    intro b hb
    exact if_neg (by omega)
  have hnew : ∀ b, ¬ b < r.fsmBlocks → b < (fsmExtend r n).fsmBlocks → (fsmExtend r n).page b = .zero := by
    intro b hb hlt
    simp only [fsmExtend] at hlt
    exact if_pos (by omega)
  refine ⟨⟨⟨?_, ?_, ?_, ?_, h.mainCached, h.main_le⟩, rfl, Nat.le_max_left _ _, ?_, ?_⟩, Nat.le_max_right _ _⟩
  · intro b hb
    by_cases hlt : b < r.fsmBlocks
    · rw [hold b hlt]
      exact h.whole b hlt
    · rw [hnew b hlt hb]
      exact zero_whole
  · intro b hb hfresh
    by_cases hlt : b < r.fsmBlocks
    · rw [hold b hlt] at hfresh ⊢
      exact h.fresh b hlt hfresh
    · rw [hnew b hlt hb]
      rfl
  · nofun
  · rintro m ⟨⟩
    exact le_rfl
  · intro b hb hfalse
    rw [hold b hb]
    exact hfalse
  · intro b _
    by_cases hlt : b < r.fsmBlocks
    · have hlt' : b < (fsmExtend r n).fsmBlocks := hlt.trans_le (Nat.le_max_left _ _)
      rw [slotAt_of_lt hlt, slotAt_of_lt hlt', hold b hlt]
    · rw [slotAt_of_le (Nat.le_of_not_lt hlt)]
      by_cases hlt' : b < (fsmExtend r n).fsmBlocks
      · rw [slotAt_of_lt hlt', hnew b hlt hlt']
        rfl
      · exact slotAt_of_le (Nat.le_of_not_lt hlt')

/-- What reading the page in block `phys` of the map gives. -/
structure Read (r : Rel) (phys : Nat) (extend : Bool) (out : Option Nat × Rel) : Prop where
  kept : Kept r out.2 (fun _ => False)
  blocks : extend = false → out.2.fsmBlocks = r.fsmBlocks
  missing : out.1 = none → extend = false ∧ r.fsmBlocks ≤ phys
  found : ∀ blk, out.1 = some blk → blk = phys ∧ blk < out.2.fsmBlocks ∧ (out.2.page blk).isNew = false

theorem Good.read (addr : FSMAddress) (extend : Bool) :
    Read r (fsmLogicalToPhysical addr) extend (fsmReadbuf r addr extend) := by
  obtain ⟨cached, hsize, hcache, hiff⟩ := h.fsmSize (fsmLogicalToPhysical addr)
  simp only [fsmReadbuf, hsize, hiff]
  generalize fsmLogicalToPhysical addr = phys
  by_cases hout : r.fsmBlocks ≤ phys
  · rw [if_pos hout]
    cases extend with
    | false => exact ⟨hcache, fun _ => rfl, fun _ => ⟨rfl, hout⟩, nofun⟩
    | true =>
      obtain ⟨hext, hle⟩ := hcache.good.extend (phys + 1)
      obtain ⟨hinit, hnew, hblocks⟩ := hext.good.initNew (lt_of_succ_le hle)
      refine ⟨hcache.trans (hext.trans hinit), nofun, nofun, ?_⟩
      rintro blk ⟨⟩
      exact ⟨rfl, lt_of_succ_le (hle.trans hblocks.symm.le), hnew⟩
  · rw [if_neg hout]
    obtain ⟨hinit, hnew, hblocks⟩ := hcache.good.initNew (Nat.lt_of_not_le hout)
    refine ⟨hcache.trans hinit, fun _ => hblocks, nofun, ?_⟩
    rintro blk ⟨⟩
    exact ⟨rfl, by rw [hblocks]; exact Nat.lt_of_not_le hout, hnew⟩

/-- A page that is looked for without extending the map. -/
theorem Good.lookup (addr : FSMAddress) : ∃ r₁, Kept r r₁ (fun _ => False) ∧ r₁.fsmBlocks = r.fsmBlocks ∧
      (fsmReadbuf r addr false = (none, r₁) ∧ r₁.fsmBlocks ≤ fsmLogicalToPhysical addr ∨
        fsmReadbuf r addr false = (some (fsmLogicalToPhysical addr), r₁) ∧
          fsmLogicalToPhysical addr < r₁.fsmBlocks ∧
          (r₁.page (fsmLogicalToPhysical addr)).isNew = false) := by
  have hread := h.read addr false
  have hblocks := hread.blocks rfl
  generalize fsmReadbuf r addr false = out at hread hblocks
  generalize fsmLogicalToPhysical addr = phys at hread
  obtain ⟨_ | blk, r₁⟩ := out
  · exact ⟨r₁, hread.kept, hblocks, .inl ⟨rfl, hblocks.le.trans (hread.missing rfl).2⟩⟩
  · obtain ⟨rfl, hlt, hnew⟩ := hread.found blk rfl
    exact ⟨r₁, hread.kept, hblocks, .inr ⟨rfl, hlt, hnew⟩⟩

end

/-- Setting a slot, with a search of the page or without. -/
structure SetSlot (r : Rel) (blk slot value minValue : Nat) (out : Option Nat × Rel) : Prop where
  kept : Kept r out.2 (· = blk)
  set : slotAt out.2 blk = update (slotAt r blk) slot value
  missing : minValue ≠ 0 → out.1 = none → ∀ s, s < slotsPerFsmPage → slotAt out.2 blk s < minValue
  found : ∀ s, out.1 = some s → s < slotsPerFsmPage ∧ minValue ≤ slotAt out.2 blk s

theorem searched_leaves (h : page.Whole) (minvalue : Nat) (advancenext : Bool) :
    Leaves page (fsmSearchAvail page minvalue advancenext).2 (fsmGetAvail page) := by
  obtain ⟨hnode, hnew, -⟩ := fsmSearchAvail_spec h minvalue advancenext
  refine ⟨?_, ?_, hnew⟩
  · rw [FsmPage.Whole, hnode]
    exact h
  · funext s
    rw [fsmGetAvail, hnode]
    rfl

theorem leaves_trans {p q s : FsmPage} {f g : Nat → Nat} (h : Leaves p q f) (h' : Leaves q s g) :
    Leaves p s g := ⟨h'.whole, h'.slots, h'.isNew.trans h.isNew⟩

theorem Good.setAndSearch (h : Good r) (addr : FSMAddress) (hslot : slot < slotsPerFsmPage)
    (newValue minValue : Nat) :
    SetSlot r (fsmLogicalToPhysical addr) slot newValue minValue
      (fsmSetAndSearch r addr slot newValue minValue) := by
  have hread := h.read addr true
  rw [fsmSetAndSearch]
  generalize fsmLogicalToPhysical addr = phys at hread
  rcases hbuf : fsmReadbuf r addr true with ⟨_ | blk, r₁⟩
  · rw [hbuf] at hread
    exact absurd (hread.missing rfl).1 (by simp)
  rw [hbuf] at hread
  obtain ⟨rfl, hlt, hnew⟩ := hread.found blk rfl
  have hkept : Kept r r₁ (· = blk) := hread.kept.mono (fun _ hf => hf.elim)
  have hsame : slotAt r₁ blk = slotAt r blk := hread.kept.slots _ id
  have hset := fsmSetAvail_leaves (hread.kept.good.whole _ hlt) hslot newValue
  rw [← slotAt_of_lt hlt, hsame] at hset
  split_ifs with hmin
  · obtain ⟨hput, hslots⟩ := hread.kept.good.setPage hlt hnew hset
    exact ⟨hkept.trans hput, hslots, fun hne => absurd hmin hne, nofun⟩
  · have hsearch := searched_leaves hset.whole minValue (addr.level == fsmBottomLevel)
    have hspec := (fsmSearchAvail_spec hset.whole minValue (addr.level == fsmBottomLevel)).2.2
    obtain ⟨hput, hslots⟩ := hread.kept.good.setPage hlt hnew (leaves_trans hset hsearch)
    refine ⟨hkept.trans hput, ?_, ?_, ?_⟩
    · rw [hslots, hset.slots]
    · intro _ hnone s hs
      rw [hnone] at hspec
      rw [hslots]
      exact (hset.whole.le_max hs).trans_lt hspec
    · intro s hs
      rw [hs] at hspec
      rw [hslots]
      exact hspec

/-- Whether a block exists is answered right, and only the cached size changes. -/
theorem Good.exist (h : Good r) (blk : Nat) : (fsmDoesBlockExist r blk).1 = decide (blk < r.mainBlocks) ∧
      ∃ cached, (fsmDoesBlockExist r blk).2 = { r with mainCached := cached } ∧
        Kept r { r with mainCached := cached } (fun _ => False) := by
  have hfresh : Kept r { r with mainCached := some r.mainBlocks } (fun _ => False) := h.cached h.fsmCached (by simp)
  unfold fsmDoesBlockExist
  cases hcached : r.mainCached with
  | none => exact ⟨rfl, some r.mainBlocks, rfl, hfresh⟩
  | some n =>
    have hn := h.mainCached n hcached
    simp only
    split_ifs with hlt
    · exact ⟨(decide_eq_true (hlt.trans_le hn)).symm, r.mainCached, rfl, .refl h⟩
    · exact ⟨rfl, some r.mainBlocks, rfl, hfresh⟩

/-! ### Blocks of the relation -/

/-- The blocks that a bottom page in range has a slot for. -/
def blockBound : Nat := 4069 * 4069 * 4069

/-- The category that the map has for a block. -/
def cat (r : Rel) (b : Nat) : Nat := slotAt r (fsmLogicalToPhysical ⟨0, b / 4069⟩) (b % 4069)

/-- The slot above the block's bottom page, and the one above that. -/
def middle (r : Rel) (b : Nat) : Nat := slotAt r (fsmLogicalToPhysical ⟨1, b / 4069 / 4069⟩) (b / 4069 % 4069)

def top (r : Rel) (b : Nat) : Nat := slotAt r (fsmLogicalToPhysical fsmRootAddress) (b / 4069 / 4069)

/-- Every block of the relation with category `min` can be found from the root. -/
def Reach (min : Nat) (r : Rel) : Prop := ∀ b, b < r.mainBlocks → min ≤ cat r b → min ≤ middle r b ∧ min ≤ top r b

theorem bottom_inRange (h : b < blockBound) : InRange ⟨0, b / 4069⟩ := by
  refine ⟨Nat.zero_le _, ?_⟩
  show b / 4069 < 4069 * 4069
  simp only [blockBound] at h
  omega

theorem middle_inRange (h : q < 4069) : InRange ⟨1, q⟩ := by
  refine ⟨le_succ 1, ?_⟩
  exact h

theorem root_inRange : InRange fsmRootAddress := by
  constructor
  · decide
  · decide

theorem main_lt (h : Good r) (hb : b < r.mainBlocks) : b < blockBound := by
  have hle := h.main_le
  simp only [invalidBlockNumber, blockBound] at hle ⊢
  omega

/-- A change above the bottom is no change of a category. -/
theorem cat_of_upper (haddr : InRange addr) (hlevel : addr.level ≠ 0)
    (h : Kept r r' (· = fsmLogicalToPhysical addr)) (hb : b < blockBound) : cat r' b = cat r b := by
  rw [cat, cat, h.slots]
  intro heq
  have haddr' := physical_injective (bottom_inRange hb) haddr heq
  rw [← haddr'] at hlevel
  exact hlevel rfl

/-- What a call other than a recording may do to the categories: forget those of blocks past the end
of the relation. -/
structure Sweeps (r r' : Rel) : Prop where
  good : Good r'
  main : r'.mainBlocks = r.mainBlocks
  cats : ∀ b, b < blockBound → cat r' b = cat r b ∨ (r.mainBlocks ≤ b ∧ cat r' b = 0)

theorem Sweeps.trans (h : Sweeps r r') (h' : Sweeps r' r'') : Sweeps r r'' where
  good := h'.good
  main := h'.main.trans h.main
  cats b hb := by
    cases h'.cats b hb with
    | inl hsame =>
      rw [hsame]
      exact h.cats b hb
    | inr hgone =>
      rw [h.main] at hgone
      exact .inr hgone

theorem Sweeps.cat_eq (h : Sweeps r r') (hr : Good r) (hb : b < r.mainBlocks) : cat r' b = cat r b := by
  cases h.cats b (main_lt hr hb) with
  | inl hsame => exact hsame
  | inr => omega

theorem sweeps_of_kept (h : Kept r r' (fun _ => False)) : Sweeps r r' :=
  ⟨h.good, h.main, fun b _ => .inl (by rw [cat, cat, h.slots _ id])⟩

theorem sweeps_of_upper (haddr : InRange addr) (hlevel : addr.level ≠ 0)
    (h : Kept r r' (· = fsmLogicalToPhysical addr)) : Sweeps r r' :=
  ⟨h.good, h.main, fun _ hb => .inl (cat_of_upper haddr hlevel h hb)⟩

/-- The blocks are found as before where the slots are the same. -/
theorem Reach.congr {min : Nat} (h : Reach min r) (hmain : r'.mainBlocks = r.mainBlocks)
    (hslots : slotAt r' = slotAt r) : Reach min r' := by
  intro b hb hmin
  rw [hmain] at hb
  simp only [cat, middle, top, hslots] at hmin ⊢
  exact h b hb hmin

theorem slotAt_of_kept (h : Kept r r' (fun _ => False)) : slotAt r' = slotAt r := by
  funext blk
  exact h.slots blk id

theorem slot_of_mod (n : Nat) : n % 4069 < slotsPerFsmPage := by
  rw [slotsPerFsmPage_eq]
  omega

theorem top_slot (h : b < blockBound) : b / 4069 / 4069 < 4069 := by
  simp only [blockBound] at h
  omega

/-! ### A round of the search -/

/-- What a finished search says of its answer. -/
def Answers (min restarts blk : Nat) (r r' : Rel) : Prop :=
  (blk < r'.mainBlocks ∧ min ≤ cat r' blk) ∨ (blk = invalidBlockNumber ∧
      (10000 < restarts ∨ (Reach min r → ∀ b, b < r'.mainBlocks → cat r' b < min)))

/-- What a round says. -/
def Says (min restarts : Nat) (r : Rel) : Round → Prop
  | .done blk r' => Sweeps r r' ∧ Answers min restarts blk r r'
  | .go addr _ r' => Sweeps r r' ∧ InRange addr ∧ (Reach min r → Reach min r')

variable {min restarts : Nat} {addr : FSMAddress}

theorem Answers.mono {blk : Nat} (h : Answers min restarts blk r' r'')
    (hreach : Reach min r → Reach min r') : Answers min restarts blk r r'' := by
  rcases h with hfound | ⟨hblk, hmany | hall⟩
  · exact .inl hfound
  · exact .inr ⟨hblk, .inl hmany⟩
  · exact .inr ⟨hblk, .inr (fun hr => hall (hreach hr))⟩

theorem Says.mono {out : Round} (hkept : Kept r r' (fun _ => False)) (h : Says min restarts r' out) :
    Says min restarts r out := by
  have hsweeps := sweeps_of_kept hkept
  have hreach : Reach min r → Reach min r' := fun hr => hr.congr hkept.main (slotAt_of_kept hkept)
  cases out with
  | done => exact ⟨hsweeps.trans h.1, h.2.mono hreach⟩
  | go => exact ⟨hsweeps.trans h.1, h.2.1, fun hr => h.2.2 (hreach hr)⟩

/-- The search restarts at a page, unless it did too often. -/
theorem Says.again (hsweeps : Sweeps r r') (haddr : InRange addr) (hreach : Reach min r → Reach min r') :
    Says min restarts r (if 10000 < restarts then .done invalidBlockNumber r' else .go addr (restarts + 1) r') := by
  split_ifs with hmany
  · exact ⟨hsweeps, .inr ⟨rfl, .inl hmany⟩⟩
  · exact ⟨hsweeps, haddr, hreach⟩

theorem parent_middle (h : q < 4069) : fsmGetParent ⟨1, q⟩ = (fsmRootAddress, q) := by
  rw [fsmGetParent, slotsPerFsmPage_eq]
  simp only [div_eq_of_lt h, mod_eq_of_lt h]
  rfl

theorem middle_ne_root (h : q < 4069) : fsmLogicalToPhysical ⟨1, q⟩ ≠ fsmLogicalToPhysical fsmRootAddress := by
  rw [physical_middle h, physical_root]
  omega

/-- A stale slot of a middle page is set right without losing a block. -/
theorem Reach.fix_middle (h : Reach min r) (hr : Good r) (hp : p < 4069 * 4069)
    (hset : SetSlot r (fsmLogicalToPhysical ⟨1, p / 4069⟩) (p % 4069) value 0 out)
    (hless : ∀ s, s < slotsPerFsmPage → slotAt r (fsmLogicalToPhysical ⟨0, p⟩) s < min) :
    Reach min out.2 := by
  have hq : p / 4069 < 4069 := by omega
  intro b hb hmin
  rw [hset.kept.main] at hb
  have hbound := main_lt hr hb
  rw [cat_of_upper (middle_inRange hq) (by simp) hset.kept hbound] at hmin
  have hfound := h b hb hmin
  have htop : top out.2 b = top r b := by
    rw [top, top, hset.kept.slots _ (middle_ne_root hq).symm]
  rw [htop]
  refine ⟨?_, hfound.2⟩
  have hne : b / 4069 ≠ p := by
    intro heq
    have hlow := hless (b % 4069) (slot_of_mod b)
    rw [← heq] at hlow
    exact Nat.not_lt.mpr hmin hlow
  by_cases hpage : b / 4069 / 4069 = p / 4069
  · have hslot : b / 4069 % 4069 ≠ p % 4069 := by omega
    rw [middle, hpage, hset.set, update_of_ne hslot, ← hpage]
    exact hfound.1
  · rw [middle, hset.kept.slots]
    · exact hfound.1
    · intro heq
      have haddr := physical_injective (middle_inRange (top_slot hbound)) (middle_inRange hq) heq
      exact hpage (congrArg FSMAddress.logpageno haddr)

/-- A stale slot of the root is set right without losing a block. -/
theorem Reach.fix_root (h : Reach min r) (hr : Good r)
    (hset : SetSlot r (fsmLogicalToPhysical fsmRootAddress) q value 0 out)
    (hless : ∀ s, s < slotsPerFsmPage → slotAt r (fsmLogicalToPhysical ⟨1, q⟩) s < min) :
    Reach min out.2 := by
  intro b hb hmin
  rw [hset.kept.main] at hb
  have hbound := main_lt hr hb
  rw [cat_of_upper root_inRange (by decide) hset.kept hbound] at hmin
  have hfound := h b hb hmin
  have hmid : middle out.2 b = middle r b := by
    rw [middle, middle, hset.kept.slots _ (middle_ne_root (top_slot hbound))]
  rw [hmid]
  refine ⟨hfound.1, ?_⟩
  have hne : b / 4069 / 4069 ≠ q := by
    intro heq
    have hlow := hless (b / 4069 % 4069) (slot_of_mod _)
    rw [← heq] at hlow
    exact Nat.not_lt.mpr hfound.1 hlow
  rw [top, hset.set, update_of_ne hne]
  exact hfound.2

/-- A page without a slot that has enough. -/
theorem Good.noSlot (h : Good r) (haddr : InRange addr) (maxAvail : Nat)
    (hless : ∀ s, s < slotsPerFsmPage → slotAt r (fsmLogicalToPhysical addr) s < min) :
    Says min restarts r (FreeSpaceMap.noSlot r addr maxAvail restarts) := by
  rcases inRange_cases haddr with ⟨p, hp, rfl⟩ | ⟨q, hq, rfl⟩ | rfl
  · have hset := h.setAndSearch ⟨1, p / 4069⟩ (slot_of_mod p) maxAvail 0
    have hsweeps := sweeps_of_upper (middle_inRange (by omega)) (by simp) hset.kept
    exact .again hsweeps root_inRange (fun hr => hr.fix_middle h hp hset hless)
  · have hset := h.setAndSearch fsmRootAddress hq maxAvail 0
    rw [FreeSpaceMap.noSlot, parent_middle hq]
    have hsweeps := sweeps_of_upper root_inRange (by decide) hset.kept
    exact .again hsweeps root_inRange (fun hr => hr.fix_root h hset hless)
  · refine ⟨sweeps_of_kept (.refl h), .inr ⟨rfl, .inr ?_⟩⟩
    intro hreach b hb
    by_contra hmin
    have hfound := (hreach b hb (Nat.le_of_not_lt hmin)).2
    exact absurd (hless _ (top_slot (main_lt h hb))) (Nat.not_lt.mpr hfound)

/-- Only block numbers have a category. -/
def Real (r : Rel) : Prop := ∀ b, b < blockBound → 0 < cat r b → b < 2 ^ 32

theorem Sweeps.real (h : Sweeps r r') (hr : Real r) : Real r' := by
  intro b hb hpos
  cases h.cats b hb with
  | inl hsame => exact hr b hb (by rw [← hsame]; exact hpos)
  | inr hgone => exact absurd hgone.2 (Nat.pos_iff_ne_zero.mp hpos)

theorem cat_block (r : Rel) (hslot : slot < 4069) :
    cat r (4069 * p + slot) = slotAt r (fsmLogicalToPhysical ⟨0, p⟩) slot := by
  have hdiv : (4069 * p + slot) / 4069 = p := by omega
  have hmod : (4069 * p + slot) % 4069 = slot := by omega
  rw [cat, hdiv, hmod]

/-- A slot of a bottom page that is not zero stands for a block. -/
theorem Real.block (h : Real r) (hp : p < 4069 * 4069) (hslot : slot < 4069)
    (hpos : 0 < slotAt r (fsmLogicalToPhysical ⟨0, p⟩) slot) :
    fsmGetHeapBlk ⟨0, p⟩ slot = 4069 * p + slot := by
  rw [← cat_block r hslot] at hpos
  have hlt := h (4069 * p + slot) (by simp only [blockBound]; omega) hpos
  rw [fsmGetHeapBlk, slotsPerFsmPage_eq]
  simp only
  omega

/-- A change of one bottom page. -/
theorem cat_of_bottom (hp : p < 4069 * 4069) (h : Kept r r' (· = fsmLogicalToPhysical ⟨0, p⟩))
    (hb : b < blockBound) (hne : b / 4069 ≠ p) : cat r' b = cat r b := by
  rw [cat, cat, h.slots]
  intro heq
  have hrange : InRange ⟨0, p⟩ := ⟨Nat.zero_le _, hp⟩
  exact hne (congrArg FSMAddress.logpageno (physical_injective (bottom_inRange hb) hrange heq))

/-- Setting a slot of a bottom page sets the category of its block, and no other. -/
theorem cat_set (hp : p < 4069 * 4069) (hslot : slot < 4069) (h : Kept r r' (· = fsmLogicalToPhysical ⟨0, p⟩))
    (hset : slotAt r' (fsmLogicalToPhysical ⟨0, p⟩) = update (slotAt r (fsmLogicalToPhysical ⟨0, p⟩)) slot value)
    (hb : b < blockBound) : cat r' b = if b = 4069 * p + slot then value else cat r b := by
  split_ifs with heq
  · rw [heq, cat_block r' hslot, hset, update_self]
  · by_cases hpage : b / 4069 = p
    · have hne : b % 4069 ≠ slot := by omega
      rw [cat, cat, hpage, hset, update_of_ne hne]
    · exact cat_of_bottom hp h hb hpage

/-- A change of a bottom page is none of the levels above. -/
theorem upper_of_bottom (hp : p < 4069 * 4069) (h : Kept r r' (· = fsmLogicalToPhysical ⟨0, p⟩))
    (hb : b < blockBound) : middle r' b = middle r b ∧ top r' b = top r b := by
  have hrange : InRange ⟨0, p⟩ := ⟨Nat.zero_le _, hp⟩
  constructor
  · rw [middle, middle, h.slots]
    intro heq
    have haddr := physical_injective (middle_inRange (top_slot hb)) hrange heq
    cases congrArg FSMAddress.level haddr
  · rw [top, top, h.slots]
    intro heq
    have haddr := physical_injective root_inRange hrange heq
    cases congrArg FSMAddress.level haddr

/-- A slot of a bottom page that has enough: its block is the answer, or lies past the end. -/
theorem Good.bottomSlot (h : Good r) (hreal : Real r) (hmin : 0 < min) (hp : p < 4069 * 4069)
    (hblk : fsmLogicalToPhysical ⟨0, p⟩ < r.fsmBlocks)
    (hnew : (r.page (fsmLogicalToPhysical ⟨0, p⟩)).isNew = false) (hslot : slot < slotsPerFsmPage)
    (henough : min ≤ slotAt r (fsmLogicalToPhysical ⟨0, p⟩) slot) :
    Says min restarts r (FreeSpaceMap.bottomSlot r ⟨0, p⟩ (fsmLogicalToPhysical ⟨0, p⟩) slot restarts) := by
  have hslot' : slot < 4069 := hslot
  obtain ⟨hex, cached, hr, hcache⟩ := h.exist (4069 * p + slot)
  simp only [FreeSpaceMap.bottomSlot, hreal.block hp hslot' (hmin.trans_le henough), hex, hr, decide_eq_true_eq]
  apply Says.mono hcache
  by_cases hin : 4069 * p + slot < r.mainBlocks
  · rw [if_pos hin]
    refine ⟨sweeps_of_kept (.refl hcache.good), .inl ⟨hin, ?_⟩⟩
    rw [cat_block _ hslot']
    exact henough
  · rw [if_neg hin]
    -- the slot is cleared
    have hset := fsmSetAvail_leaves (hcache.good.whole _ hblk) hslot 0
    obtain ⟨hput, hslots⟩ := hcache.good.setPage hblk hnew hset
    rw [← slotAt_of_lt (r := { r with mainCached := cached }) hblk] at hslots
    have hsweeps : Sweeps { r with mainCached := cached } _ := ⟨hput.good, hput.main, fun b hb => ?_⟩
    · refine .again hsweeps (middle_inRange (q := 0 * slotsPerFsmPage + slot) (by omega)) ?_
      intro hreach b hb hlow
      rw [hsweeps.cat_eq hcache.good hb] at hlow
      have hupper := upper_of_bottom hp hput (main_lt hcache.good hb)
      rw [hupper.1, hupper.2]
      exact hreach b hb hlow
    · rw [cat_set hp hslot' hput hslots hb]
      split_ifs with heq
      · exact .inr ⟨by rw [heq]; exact Nat.le_of_not_lt hin, rfl⟩
      · exact .inl rfl

theorem child_inRange (haddr : InRange addr) (hlevel : addr.level ≠ fsmBottomLevel)
    (hslot : slot < slotsPerFsmPage) : InRange (fsmGetChild addr slot) := by
  have hslot' : slot < 4069 := hslot
  rcases inRange_cases haddr with ⟨p, hp, rfl⟩ | ⟨q, hq, rfl⟩ | rfl
  · exact absurd rfl hlevel
  · refine ⟨Nat.zero_le _, ?_⟩
    show q * 4069 + slot < 4069 * 4069
    omega
  · exact middle_inRange (q := 0 * slotsPerFsmPage + slot) (by omega)

/-- What one round of the search does. -/
theorem Good.round (h : Good r) (restarts : Nat) (hreal : Real r) (hmin : 0 < min) (haddr : InRange addr) :
    Says min restarts r (FreeSpaceMap.round r min addr restarts) := by
  obtain ⟨r₁, hread, -, ⟨hbuf, hout⟩ | ⟨hbuf, hlt, hnew⟩⟩ := h.lookup addr
  · -- past the end of the map
    rw [FreeSpaceMap.round, hbuf]
    apply Says.mono hread
    apply hread.good.noSlot haddr 0
    intro s _
    rw [slotAt_of_le hout]
    exact hmin
  rw [FreeSpaceMap.round, hbuf]
  simp only
  have hwhole := hread.good.whole _ hlt
  have hleaves := searched_leaves hwhole min (addr.level == fsmBottomLevel)
  have hspec := (fsmSearchAvail_spec hwhole min (addr.level == fsmBottomLevel)).2.2
  generalize fsmSearchAvail (r₁.page (fsmLogicalToPhysical addr)) min (addr.level == fsmBottomLevel) =
    found at hleaves hspec
  obtain ⟨hput, hslots⟩ := hread.good.setPage hlt hnew hleaves
  have hkept := hread.trans (hput.of_same (hslots.trans (slotAt_of_lt hlt).symm))
  have hnew₂ := hput.isNew _ hlt hnew
  have hlt₂ := hlt.trans_le hput.blocks
  apply Says.mono hkept
  cases hfound : found.1 with
  | none =>
    rw [hfound] at hspec
    apply hkept.good.noSlot haddr
    intro s hs
    rw [hslots]
    exact (hwhole.le_max hs).trans_lt hspec
  | some =>
    rw [hfound] at hspec
    split_ifs with hbottom
    · rcases inRange_cases haddr with ⟨p, hp, rfl⟩ | ⟨q, hq, rfl⟩ | rfl
      · apply hkept.good.bottomSlot ((sweeps_of_kept hkept).real hreal) hmin hp hlt₂ hnew₂ hspec.1
        rw [hslots]
        exact hspec.2
      · cases hbottom
      · cases hbottom
    · exact ⟨sweeps_of_kept (.refl hkept.good), child_inRange haddr hbottom hspec.1, id⟩

/-- What the search does, from a page on. -/
theorem Good.searchFrom (h : Good r) (hreal : Real r) (hmin : 0 < min) (haddr : InRange addr) :
    Sweeps r (fsmSearchFrom r min addr restarts).2 ∧
      Answers min (fsmSearchFrom r min addr restarts).1.2 (fsmSearchFrom r min addr restarts).1.1 r
        (fsmSearchFrom r min addr restarts).2 := by
  fun_induction fsmSearchFrom r min addr restarts with
  | case1 r addr restarts blk r' hround =>
    have hsays := h.round restarts hreal hmin haddr
    rw [hround] at hsays
    exact hsays
  | case2 r addr restarts addr' restarts' r' hround ih =>
    have hsays := h.round restarts hreal hmin haddr
    rw [hround] at hsays
    obtain ⟨hsweeps, haddr', hreach⟩ := hsays
    obtain ⟨hrest, hanswers⟩ := ih hsweeps.good (hsweeps.real hreal) haddr'
    exact ⟨hsweeps.trans hrest, hanswers.mono hreach⟩

theorem Good.search (h : Good r) (hreal : Real r) (hmin : 0 < min) :
    Sweeps r (fsmSearch r min).2 ∧ Answers min (fsmSearch r min).1.2 (fsmSearch r min).1.1 r (fsmSearch r min).2 :=
  h.searchFrom hreal hmin root_inRange

/-! ### Vacuuming -/

/-- What vacuuming the page in block `c` of the map gives: a bound for its slots, and `deep` of the
pages below it. -/
structure Vacuums (c : Nat) (touched : Nat → Prop) (deep : (Nat → Nat → Nat) → Prop) (r : Rel)
    (out : (Nat × Bool) × Rel) : Prop where
  kept : Kept r out.2 touched
  blocks : out.2.fsmBlocks = r.fsmBlocks
  missing : out.1.2 = true → r.fsmBlocks ≤ c
  bound : ∀ t, t < slotsPerFsmPage → slotAt out.2 c t ≤ out.1.1
  below : deep (slotAt out.2)

/-- The pages below a page in block `blk`: where they lie, what vacuuming them touches, and what is
known of them then. That depends on a page's own part of the map, and holds where the map ends before
it. -/
structure Children (blk : Nat) (c : Nat → Nat) (touched : Nat → Nat → Prop)
    (deep : Nat → (Nat → Nat → Nat) → Prop) : Prop where
  own : ∀ s b, touched s b → b = c s
  ne : ∀ s, s < slotsPerFsmPage → c s ≠ blk
  mono : ∀ s t, s < t → t < slotsPerFsmPage → c s < c t
  congr : ∀ s, s < slotsPerFsmPage → ∀ f g : Nat → Nat → Nat,
    (∀ b, b ≠ blk → (∀ t, t < slotsPerFsmPage → t ≠ s → b ≠ c t) → f b = g b) → deep s g → deep s f
  absent : ∀ s, s < slotsPerFsmPage → ∀ (r : Rel), r.fsmBlocks ≤ c s → deep s (slotAt r)

/-- After the slots from `first` to before `last`. -/
structure Vacuumed (blk : Nat) (c : Nat → Nat) (touched : Nat → Nat → Prop)
    (deep : Nat → (Nat → Nat → Nat) → Prop) (first last : Nat) (r : Rel) (state : Bool × Rel) :
    Prop where
  kept : Kept r state.2 (fun b => b = blk ∨ ∃ s, s < slotsPerFsmPage ∧ touched s b)
  blocks : state.2.fsmBlocks = r.fsmBlocks
  ended : state.1 = true → ∀ s, last ≤ s → s < slotsPerFsmPage → r.fsmBlocks ≤ c s
  hints : ∀ s, first ≤ s → s < last → (∀ t, t < slotsPerFsmPage → slotAt state.2 (c s) t ≤ slotAt state.2 blk s) ∧
      deep s (slotAt state.2)

variable {blk first : Nat} {c : Nat → Nat} {T : Nat → Nat → Prop} {deep : Nat → (Nat → Nat → Nat) → Prop}
  {child : Nat → Rel → (Nat × Bool) × Rel}

/-- A page that the map does not reach. -/
theorem Kept.vacuums (h : Kept r r' touched) (hblocks : r'.fsmBlocks = r.fsmBlocks) (hout : r'.fsmBlocks ≤ n)
    (hdeep : D (slotAt r')) : Vacuums n touched D r ((0, true), r') := by
  refine ⟨h, hblocks, fun _ => hblocks ▸ hout, ?_, hdeep⟩
  intro t _
  rw [slotAt_of_le hout]

/-- A slot is set to what the page below it says. -/
theorem Good.setTo (h : Good r) (hblk : blk < r.fsmBlocks) (hnew : (r.page blk).isNew = false)
    (hslot : slot < slotsPerFsmPage) (value : Nat) (eof : Bool) :
    ∃ r', (if fsmGetAvail (r.page blk) slot = value then (eof, r)
        else (eof, r.setPage blk (fsmSetAvail (r.page blk) slot value).2)) = (eof, r') ∧
      Kept r r' (· = blk) ∧ r'.fsmBlocks = r.fsmBlocks ∧
      slotAt r' blk = update (slotAt r blk) slot value := by
  split_ifs with heq
  · refine ⟨r, rfl, .refl h, rfl, ?_⟩
    rw [slotAt_of_lt hblk, ← heq]
    exact (update_eq_self slot (fsmGetAvail (r.page blk))).symm
  · obtain ⟨hput, hslots⟩ := h.setPage hblk hnew (fsmSetAvail_leaves (h.whole blk hblk) hslot value)
    rw [← slotAt_of_lt hblk] at hslots
    exact ⟨_, rfl, hput, rfl, hslots⟩

/-- One slot more. -/
theorem Vacuumed.next (hc : Children blk c T deep) {last : Nat} {state : Bool × Rel}
    (h : Vacuumed blk c T deep first last r state) (hblk : blk < r.fsmBlocks)
    (hnew : (r.page blk).isNew = false) (hlast : last < slotsPerFsmPage)
    (hchild : ∀ r, Good r → Vacuums (c last) (T last) (deep last) r (child last r)) :
    Vacuumed blk c T deep first (last + 1) r (vacuumSlot child blk state last) := by
  -- the page below, which is not asked where the map has ended
  have hbelow : Vacuums (c last) (T last) (deep last) state.2
      (if state.1 then ((0, true), state.2) else child last state.2) := by
    cases hcase : state.1 with
    | true =>
      have hout : state.2.fsmBlocks ≤ c last := by
        rw [h.blocks]
        exact h.ended hcase last (le_rfl) hlast
      exact (Kept.refl h.kept.good).vacuums rfl hout (hc.absent last hlast _ hout)
    | false => exact hchild _ h.kept.good
  simp only [vacuumSlot]
  generalize (if state.1 then ((0, true), state.2) else child last state.2) = below at hbelow
  have hblk₁ : blk < below.2.fsmBlocks := by
    rw [hbelow.blocks, h.blocks]
    exact hblk
  have hnew₁ : (below.2.page blk).isNew = false :=
    hbelow.kept.isNew blk (by rw [h.blocks]; exact hblk) (h.kept.isNew blk hblk hnew)
  obtain ⟨r₂, heq, hset, hblocks, hslots⟩ := hbelow.kept.good.setTo hblk₁ hnew₁ hlast below.1.1 below.1.2
  rw [heq]
  have hone : ∀ b, b ≠ blk → b ≠ c last → slotAt r₂ b = slotAt state.2 b := by
    intro b hb hbc
    rw [hset.slots b hb, hbelow.kept.slots b (fun ht => hbc (hc.own last b ht))]
  refine ⟨?_, ?_, ?_, ?_⟩
  · refine h.kept.trans ((hbelow.kept.mono ?_).trans (hset.mono ?_))
    · exact fun b hb => .inr ⟨last, hlast, hb⟩
    · exact fun b hb => .inl hb
  · rw [hblocks, hbelow.blocks, h.blocks]
  · intro heof s hs hlt
    have hout := hbelow.missing heof
    rw [h.blocks] at hout
    exact hout.trans (hc.mono last s hs hlt).le
  · intro s hs hlt
    obtain rfl | hthis := eq_or_ne s last
    · refine ⟨?_, ?_⟩
      · intro t ht
        rw [hset.slots _ (hc.ne s hlast), hslots, update_self]
        exact hbelow.bound t ht
      · refine hc.congr s hlast _ _ ?_ hbelow.below
        intro b hb _
        exact hset.slots b hb
    · have hslt : s < last := by omega
      have hsmax : s < slotsPerFsmPage := by omega
      obtain ⟨hbound, hdeep⟩ := h.hints s hs hslt
      have hne : c s ≠ c last := Nat.ne_of_lt (hc.mono s last hslt hlast)
      refine ⟨?_, ?_⟩
      · intro t ht
        rw [hone _ (hc.ne s hsmax) hne, hslots, update_of_ne hthis,
          hbelow.kept.slots blk (fun ht => hc.ne last hlast (hc.own last blk ht).symm)]
        exact hbound t ht
      · refine hc.congr s hsmax _ _ ?_ hdeep
        intro b hb hother
        exact hone b hb (hother last hlast (fun he => hthis he.symm))

/-- All slots. -/
theorem vacuumed_slots (hc : Children blk c T deep) (h : Good r) (hblk : blk < r.fsmBlocks)
    (hnew : (r.page blk).isNew = false) (n : Nat) (hn : first + n ≤ slotsPerFsmPage)
    (hchild : ∀ s, s < slotsPerFsmPage → ∀ r, Good r → Vacuums (c s) (T s) (deep s) r (child s r)) :
    Vacuumed blk c T deep first (first + n) r ((List.range' first n).foldl (vacuumSlot child blk) (false, r)) := by
  induction n with
  | zero =>
    refine ⟨.refl h, rfl, ?_, ?_⟩
    · nofun
    · omega
  | succ n ih =>
    rw [List.range'_concat, List.foldl_append, Nat.one_mul]
    exact (ih (by omega)).next hc hblk hnew (by omega) (hchild (first + n) (by omega))

/-- The page itself, whose slots stay as they are. -/
theorem Good.vacuumed (h : Good r) (hblk : blk < r.fsmBlocks) (hnew : (r.page blk).isNew = false) :
    Kept r (vacuumed r blk).2 (fun _ => False) ∧
      ∀ t, t < slotsPerFsmPage → slotAt (vacuumed r blk).2 blk t ≤ (vacuumed r blk).1.1 := by
  have hwhole := h.whole blk hblk
  obtain ⟨hput, hslots⟩ := h.setPage hblk hnew (setNextSlot_leaves hwhole 0)
  refine ⟨hput.of_same (hslots.trans (slotAt_of_lt hblk).symm), ?_⟩
  intro t ht
  exact (congrFun hslots t).le.trans (hwhole.le_max ht)

/-- The page itself, once its slots are done. -/
theorem Vacuumed.finish (h : Vacuumed blk c T deep first last r state) (hblk : blk < r.fsmBlocks)
    (hnew : (r.page blk).isNew = false) (hdeep : ∀ f : Nat → Nat → Nat, (∀ s, first ≤ s → s < last →
      (∀ t, t < slotsPerFsmPage → f (c s) t ≤ f blk s) ∧ deep s f) → D f) :
    Vacuums blk (fun b => b = blk ∨ ∃ s, s < slotsPerFsmPage ∧ T s b) D r (vacuumed state.2 blk) := by
  have hblk₁ : blk < state.2.fsmBlocks := by
    rw [h.blocks]
    exact hblk
  obtain ⟨hkept, hbound⟩ := h.kept.good.vacuumed hblk₁ (h.kept.isNew blk hblk hnew)
  refine ⟨h.kept.trans (hkept.mono (fun _ hf => hf.elim)), h.blocks, nofun, hbound, ?_⟩
  rw [slotAt_of_kept hkept]
  exact hdeep _ h.hints

theorem Good.vacuumBottom (h : Good r) (start stop p : Nat) :
    Vacuums (fsmLogicalToPhysical ⟨0, p⟩) (fun _ => False) (fun _ => True) r (fsmVacuumPage start stop 0 p r) := by
  obtain ⟨r₁, hread, hblocks, ⟨hbuf, hout⟩ | ⟨hbuf, hlt, hnew⟩⟩ := h.lookup ⟨0, p⟩
  · rw [fsmVacuumPage, hbuf]
    exact hread.vacuums hblocks hout trivial
  · rw [fsmVacuumPage, hbuf]
    obtain ⟨hkept, hbound⟩ := hread.good.vacuumed hlt hnew
    exact ⟨hread.trans hkept, hblocks, nofun, hbound, trivial⟩

theorem upTo_slot (h : loc.2 < slotsPerFsmPage) : (upTo level loc).2 < slotsPerFsmPage := by
  induction level generalizing loc with
  | zero => exact h
  | succ level ih => exact ih (slot_of_mod _)

theorem startSlot_le (addr) (start : Nat) : startSlot addr start ≤ slotsPerFsmPage := by
  simp only [startSlot]
  split_ifs
  · exact (upTo_slot (slot_of_mod start)).le
  · exact le_rfl
  · exact Nat.zero_le _

theorem endSlot_le (addr) (stop : Nat) : endSlot addr stop ≤ slotsPerFsmPage := by
  simp only [endSlot]
  split_ifs
  · exact upTo_slot (slot_of_mod (stop - 1))
  · exact le_rfl
  · exact Nat.zero_le _

/-- A page above the bottom, with what is known of the pages below it. -/
theorem Good.vacuumUpper (h : Good r) (start stop level logpageno : Nat)
    (hc : Children (fsmLogicalToPhysical ⟨level + 1, logpageno⟩) c T deep)
    (hchild : ∀ s, s < slotsPerFsmPage → ∀ r, Good r → Vacuums (c s) (T s) (deep s) r
      (fsmVacuumPage start stop level (logpageno * slotsPerFsmPage + s) r))
    (habsent : ∀ r : Rel, r.fsmBlocks ≤ fsmLogicalToPhysical ⟨level + 1, logpageno⟩ →
      D (slotAt r)) (hdeep : ∀ f : Nat → Nat → Nat, (∀ s, startSlot ⟨level + 1, logpageno⟩ start ≤ s →
      s < endSlot ⟨level + 1, logpageno⟩ stop →
      (∀ t, t < slotsPerFsmPage → f (c s) t ≤ f (fsmLogicalToPhysical ⟨level + 1, logpageno⟩) s) ∧
        deep s f) → D f) :
    Vacuums (fsmLogicalToPhysical ⟨level + 1, logpageno⟩)
      (fun b => b = fsmLogicalToPhysical ⟨level + 1, logpageno⟩ ∨ ∃ s, s < slotsPerFsmPage ∧ T s b)
      D r (fsmVacuumPage start stop (level + 1) logpageno r) := by
  have hstart := startSlot_le ⟨level + 1, logpageno⟩ start
  have hend := endSlot_le ⟨level + 1, logpageno⟩ stop
  obtain ⟨r₁, hread, hblocks, ⟨hbuf, hout⟩ | ⟨hbuf, hlt, hnew⟩⟩ := h.lookup ⟨level + 1, logpageno⟩
  · rw [fsmVacuumPage, hbuf]
    exact (hread.mono (fun _ hf => hf.elim)).vacuums hblocks hout (habsent _ hout)
  · rw [fsmVacuumPage, hbuf]
    generalize startSlot ⟨level + 1, logpageno⟩ start = first at hstart hdeep
    generalize endSlot ⟨level + 1, logpageno⟩ stop = last at hend hdeep
    have hslots : first + (last - first) ≤ slotsPerFsmPage := by omega
    have hall := vacuumed_slots hc hread.good hlt hnew (last - first) hslots hchild
    have hfin := hall.finish (D := D) hlt hnew (fun f hf => hdeep f (fun s hs hl => hf s hs (by omega)))
    refine ⟨(hread.mono (fun _ hf => hf.elim)).trans hfin.kept, hfin.blocks.trans hblocks, ?_,
      hfin.bound, hfin.below⟩
    intro heof
    exact absurd hlt (Nat.not_lt.mpr (hfin.missing heof))

/-- The slots of a middle page bound those of the bottom pages that were visited. -/
def Bounds (start stop q : Nat) (f : Nat → Nat → Nat) : Prop :=
  ∀ s, startSlot ⟨1, q⟩ start ≤ s → s < endSlot ⟨1, q⟩ stop → ∀ t, t < slotsPerFsmPage →
    f (fsmLogicalToPhysical ⟨0, q * 4069 + s⟩) t ≤ f (fsmLogicalToPhysical ⟨1, q⟩) s

/-- Where the map ends before the middle page, it ends before the pages below it. -/
theorem bounds_absent (hq : q < 4069) (hout : r.fsmBlocks ≤ fsmLogicalToPhysical ⟨1, q⟩) :
    Bounds start stop q (slotAt r) := by
  intro s _ hs t _
  have hs' : s < 4069 := hs.trans_le (endSlot_le _ _)
  rw [slotAt_of_le hout, slotAt_of_le]
  rw [physical_middle hq] at hout
  rw [physical_bottom (by omega)]
  omega

theorem middle_children (hq : q < 4069) :
    Children (fsmLogicalToPhysical ⟨1, q⟩) (fun s => fsmLogicalToPhysical ⟨0, q * 4069 + s⟩)
      (fun _ _ => False) (fun _ _ => True) where
  own _ _ hf := hf.elim
  ne s hs := by
    rw [slotsPerFsmPage_eq] at hs
    rw [physical_bottom (by omega), physical_middle hq]
    omega
  mono s t hst ht := by
    rw [slotsPerFsmPage_eq] at ht
    rw [physical_bottom (by omega), physical_bottom (by omega)]
    omega
  congr _ _ _ _ _ _ := trivial
  absent _ _ _ _ := trivial

theorem Good.vacuumMiddle (h : Good r) (start stop : Nat) (hq : q < 4069) :
    Vacuums (fsmLogicalToPhysical ⟨1, q⟩) (· = fsmLogicalToPhysical ⟨1, q⟩) (Bounds start stop q) r
      (fsmVacuumPage start stop 1 q r) := by
  have hpage := h.vacuumUpper start stop 0 q (D := Bounds start stop q) (middle_children hq)
    (fun s _ r hr => hr.vacuumBottom start stop (q * 4069 + s)) ?_ ?_
  · refine ⟨hpage.kept.mono ?_, hpage.blocks, hpage.missing, hpage.bound, hpage.below⟩
    rintro b (hb | ⟨s, _, hf⟩)
    · exact hb
    · exact hf.elim
  · exact fun r => bounds_absent hq
  · intro f hf s hs hlast
    exact (hf s hs hlast).1

theorem root_children (start stop : Nat) :
    Children (fsmLogicalToPhysical ⟨2, 0⟩) (fun q => fsmLogicalToPhysical ⟨1, q⟩)
      (fun q b => b = fsmLogicalToPhysical ⟨1, q⟩) (fun q => Bounds start stop q) where
  own _ _ hb := hb
  ne _ hq := middle_ne_root hq
  mono q q' hqq hq' := by
    rw [slotsPerFsmPage_eq] at hq'
    rw [physical_middle (by omega), physical_middle (by omega)]
    omega
  congr q hq f g hfg hg := by
    rw [slotsPerFsmPage_eq] at hq
    intro s hs hlast t ht
    have hs' : s < 4069 := hlast.trans_le (endSlot_le _ _)
    have hroot : fsmLogicalToPhysical ⟨2, 0⟩ = 0 := physical_root
    rw [hfg (fsmLogicalToPhysical ⟨1, q⟩), hfg (fsmLogicalToPhysical ⟨0, q * 4069 + s⟩)]
    · exact hg s hs hlast t ht
    · rw [physical_bottom (by omega)]
      omega
    · intro q' hq' _
      rw [physical_bottom (by omega), physical_middle hq']
      omega
    · rw [physical_middle hq]
      omega
    · intro q' hq' hne
      rw [physical_middle hq, physical_middle hq']
      omega
  absent q hq r := bounds_absent hq

/-- The slots of the root bound those of the middle pages that were visited. -/
def BoundsAll (start stop : Nat) (f : Nat → Nat → Nat) : Prop :=
  ∀ q, startSlot ⟨2, 0⟩ start ≤ q → q < endSlot ⟨2, 0⟩ stop → (∀ t, t < slotsPerFsmPage →
      f (fsmLogicalToPhysical ⟨1, q⟩) t ≤ f (fsmLogicalToPhysical ⟨2, 0⟩) q) ∧ Bounds start stop q f

theorem Good.vacuumRoot (h : Good r) (start stop : Nat) :
    Vacuums (fsmLogicalToPhysical ⟨2, 0⟩) (fun b => b = fsmLogicalToPhysical ⟨2, 0⟩ ∨
        ∃ q, q < slotsPerFsmPage ∧ b = fsmLogicalToPhysical ⟨1, q⟩)
      (BoundsAll start stop) r (fsmVacuumPage start stop 2 0 r) := by
  refine h.vacuumUpper start stop 1 0 (root_children start stop) ?_ ?_ ?_
  · intro q hq r hr
    rw [Nat.zero_mul, Nat.zero_add]
    exact hr.vacuumMiddle start stop hq
  · intro r hout q _ hlast
    have hmid : r.fsmBlocks ≤ fsmLogicalToPhysical ⟨1, q⟩ := hout.trans (Nat.zero_le _)
    refine ⟨?_, bounds_absent (hlast.trans_le (endSlot_le _ _)) hmid⟩
    intro t _
    rw [slotAt_of_le hmid, slotAt_of_le hout]
  · intro f hf
    exact hf

/-- Vacuuming changes no category. -/
theorem Good.vacuum_sweeps (h : Good r) (start stop : Nat) : Sweeps r (fsmVacuumPage start stop 2 0 r).2 := by
  have hv := h.vacuumRoot start stop
  refine ⟨hv.kept.good, hv.kept.main, ?_⟩
  intro b hb
  refine .inl ?_
  rw [cat, cat, hv.kept.slots]
  rintro (heq | ⟨q, hq, heq⟩)
  · cases congrArg FSMAddress.level (physical_injective (bottom_inRange hb) root_inRange heq)
  · cases congrArg FSMAddress.level (physical_injective (bottom_inRange hb) (middle_inRange hq) heq)

/-- The levels above bound the slots of every bottom page with a block of the relation. -/
def Tight (r : Rel) : Prop :=
  ∀ b, b < r.mainBlocks →
    (∀ t, t < slotsPerFsmPage → slotAt r (fsmLogicalToPhysical ⟨0, b / 4069⟩) t ≤ middle r b) ∧ middle r b ≤ top r b

theorem Tight.reach (h : Tight r) (min : Nat) : Reach min r := by
  intro b hb hmin
  obtain ⟨hmid, htop⟩ := h b hb
  have hle := hmin.trans (hmid (b % 4069) (slot_of_mod b))
  exact ⟨hle, hle.trans htop⟩

theorem startSlot_middle (q start : Nat) :
    startSlot ⟨1, q⟩ start = if start / 4069 / 4069 = q then start / 4069 % 4069
      else if q < start / 4069 / 4069 then 4069 else 0 := rfl

theorem endSlot_middle (q stop : Nat) :
    endSlot ⟨1, q⟩ stop = if (stop - 1) / 4069 / 4069 = q then (stop - 1) / 4069 % 4069 + 1
      else if q < (stop - 1) / 4069 / 4069 then 4069 else 0 := rfl

/-- Vacuuming the whole map visits every page that has a block. -/
theorem Good.vacuum_tight (h : Good r) : Tight (freeSpaceMapVacuum r) := by
  have hv := h.vacuumRoot 0 invalidBlockNumber
  intro b hb
  have hmain : (freeSpaceMapVacuum r).mainBlocks = r.mainBlocks := hv.kept.main
  have hle := h.main_le
  simp only [invalidBlockNumber] at hle
  have hend : endSlot ⟨2, 0⟩ invalidBlockNumber = 260 := by decide
  have hq : b / 4069 / 4069 < 260 := by omega
  obtain ⟨htop, hmid⟩ := hv.below (b / 4069 / 4069) (Nat.zero_le _) (by rw [hend]; exact hq)
  refine ⟨?_, htop _ (slot_of_mod _)⟩
  intro t ht
  have hp : b / 4069 / 4069 * 4069 + b / 4069 % 4069 = b / 4069 := by omega
  have hbound := hmid (b / 4069 % 4069)
  rw [hp] at hbound
  apply hbound _ _ t ht
  · rw [startSlot_middle]
    split_ifs
    · exact Nat.zero_le _
    · omega
    · exact Nat.zero_le _
  · rw [endSlot_middle, invalidBlockNumber]
    split_ifs
    · omega
    · omega
    · omega

/-! ### Runs of calls -/

/-- What is done to one relation: the calls, and between them the relation and the map change their
sizes. A size that the storage manager has cached was one of the relation, and no larger than the
present one. -/
inductive Call where
  | record (heapBlk spaceAvail : Nat)
  | recordAndGet (oldPage oldSpaceAvail spaceNeeded : Nat)
  | get (spaceNeeded : Nat)
  | vacuum
  | vacuumRange (start stop : Nat)
  | prepareTruncate (nblocks : Nat)
  | resize (nblocks : Nat) (cached : Option Nat)
  | truncateMap (nblocks : Nat)

/-- Block numbers are 32 bits wide, and the last of them is no block. -/
def Call.Valid : Call → Prop
  | .record heapBlk _ => heapBlk < 2 ^ 32
  | .recordAndGet oldPage _ _ => oldPage < 2 ^ 32
  | .prepareTruncate nblocks => nblocks < 2 ^ 32
  | .resize nblocks cached => nblocks ≤ invalidBlockNumber ∧ ∀ n, cached = some n → n ≤ nblocks
  | _ => True

/-- The state that a call which may fail leaves. -/
def leaves (r : Rel) : Except String ((Nat × Nat) × Rel) → Rel
  | .ok out => out.2
  | .error _ => r

def step (r : Rel) : Call → Rel
  | .record heapBlk spaceAvail => recordPageWithFreeSpace r heapBlk spaceAvail
  | .recordAndGet oldPage oldSpaceAvail spaceNeeded =>
    leaves r (recordAndGetPageWithFreeSpace r oldPage oldSpaceAvail spaceNeeded)
  | .get spaceNeeded => leaves r (getPageWithFreeSpace r spaceNeeded)
  | .vacuum => freeSpaceMapVacuum r
  | .vacuumRange start stop => freeSpaceMapVacuumRange r start stop
  | .prepareTruncate nblocks => (freeSpaceMapPrepareTruncateRel r nblocks).2
  | .resize nblocks cached => { r with mainBlocks := nblocks, mainCached := cached }
  | .truncateMap nblocks =>
    { r with
      fsmBlocks := Min.min r.fsmBlocks nblocks
      fsmCached := some (Min.min r.fsmBlocks nblocks) }

/-- What was recorded: the space last recorded for each block, and whether the block has stood inside
the relation and the map since. -/
structure Ledger where
  last : Nat → Option Nat
  kept : Nat → Bool

def Ledger.empty : Ledger := ⟨fun _ => none, fun _ => false⟩

def Ledger.record (led : Ledger) (r : Rel) (heapBlk spaceAvail : Nat) : Ledger :=
  ⟨update led.last heapBlk (some spaceAvail), update led.kept heapBlk (decide (heapBlk < r.mainBlocks))⟩

def Ledger.cut (led : Ledger) (stays : Nat → Bool) : Ledger := { led with kept := fun b => led.kept b && stays b }

def Ledger.step (led : Ledger) (r : Rel) : Call → Ledger
  | .record heapBlk spaceAvail => led.record r heapBlk spaceAvail
  | .recordAndGet oldPage oldSpaceAvail spaceNeeded =>
    if spaceNeeded ≤ maxFsmRequestSize then led.record r oldPage oldSpaceAvail else led
  | .prepareTruncate nblocks => led.cut (fun b => decide (b < nblocks))
  | .resize nblocks _ => led.cut (fun b => decide (b < nblocks))
  | .truncateMap nblocks => led.cut (fun b => decide (fsmLogicalToPhysical (fsmGetLocation b).1 < nblocks))
  | _ => led

/-- The states that a run of calls reaches, from a relation of any size without a map. -/
inductive Reachable : Rel → Ledger → Prop
  | start (nblocks : Nat) (h : nblocks ≤ invalidBlockNumber) :
    Reachable ⟨nblocks, none, false, 0, none, fun _ => .zero⟩ .empty
  | step {r : Rel} {led : Ledger} (call : Call) (h : Reachable r led) (hcall : call.Valid) :
    Reachable (step r call) (led.step r call)

/-- The map holds what was last recorded, or nothing. -/
structure Inv (r : Rel) (led : Ledger) : Prop where
  good : Good r
  cats : ∀ b, b < blockBound → cat r b = 0 ∨
    (b < 2 ^ 32 ∧ ∃ avail, led.last b = some avail ∧ cat r b = fsmSpaceAvailToCat avail)
  kept : ∀ b, led.kept b = true →
    b < r.mainBlocks ∧ ∃ avail, led.last b = some avail ∧ cat r b = fsmSpaceAvailToCat avail

variable {led : Ledger}

theorem Inv.real (h : Inv r led) : Real r := by
  intro b hb hpos
  cases h.cats b hb with
  | inl => omega
  | inr hrec => exact hrec.1

/-- Nothing new is recorded, and what is forgotten is not kept. -/
theorem Inv.forget (h : Inv r led) (hgood : Good r') (hlast : led'.last = led.last)
    (hkept : ∀ b, led'.kept b = true → led.kept b = true ∧ b < r'.mainBlocks)
    (hcats : ∀ b, b < blockBound → cat r' b = cat r b ∨ (led'.kept b = false ∧ cat r' b = 0)) :
    Inv r' led' := by
  refine ⟨hgood, ?_, ?_⟩
  · intro b hb
    rw [hlast]
    cases hcats b hb with
    | inl hsame =>
      rw [hsame]
      exact h.cats b hb
    | inr hgone => exact .inl hgone.2
  · intro b hb
    obtain ⟨hk, hlt⟩ := hkept b hb
    refine ⟨hlt, ?_⟩
    rw [hlast]
    cases hcats b (main_lt hgood hlt) with
    | inl hsame =>
      rw [hsame]
      exact (h.kept b hk).2
    | inr hgone =>
      rw [hgone.1] at hb
      cases hb

theorem Inv.sweeps (h : Inv r led) (hs : Sweeps r r') : Inv r' led := by
  refine h.forget hs.good rfl ?_ ?_
  · intro b hb
    rw [hs.main]
    exact ⟨hb, (h.kept b hb).1⟩
  · intro b hb
    cases hs.cats b hb with
    | inl hsame => exact .inl hsame
    | inr hgone =>
      refine .inr ⟨?_, hgone.2⟩
      by_contra hk
      have hlt := (h.kept b (by simpa using hk)).1
      omega

theorem bottom_page (hb : b < 2 ^ 32) : b / 4069 < 4069 * 4069 := by omega

theorem block_eq (b : Nat) : 4069 * (b / 4069) + b % 4069 = b := by omega

/-- Recording sets the category of the block. -/
theorem Good.record (h : Good r) (avail minValue : Nat) (hb : b < 2 ^ 32) :
    SetSlot r (fsmLogicalToPhysical ⟨0, b / 4069⟩) (b % 4069) (fsmSpaceAvailToCat avail) minValue
      (fsmSetAndSearch r (fsmGetLocation b).1 (fsmGetLocation b).2 (fsmSpaceAvailToCat avail) minValue) ∧
    ∀ x, x < blockBound →
      cat (fsmSetAndSearch r (fsmGetLocation b).1 (fsmGetLocation b).2 (fsmSpaceAvailToCat avail)
        minValue).2 x = if x = b then fsmSpaceAvailToCat avail else cat r x := by
  have hset := h.setAndSearch (fsmGetLocation b).1 (slot_of_mod b) (fsmSpaceAvailToCat avail) minValue
  refine ⟨hset, ?_⟩
  intro x hx
  have hcat := cat_set (bottom_page hb) (slot_of_mod b) hset.kept hset.set hx
  rw [block_eq] at hcat
  exact hcat

theorem Inv.record (h : Inv r led) (avail minValue : Nat) (hb : b < 2 ^ 32) :
    Inv (fsmSetAndSearch r (fsmGetLocation b).1 (fsmGetLocation b).2 (fsmSpaceAvailToCat avail)
      minValue).2 (led.record r b avail) := by
  obtain ⟨hset, hcats⟩ := h.good.record avail minValue hb
  refine ⟨hset.kept.good, ?_, ?_⟩
  · intro x hx
    rw [hcats x hx]
    obtain rfl | hxb := eq_or_ne x b
    · rw [if_pos rfl]
      exact .inr ⟨hb, avail, update_self .., rfl⟩
    · rw [if_neg hxb, Ledger.record]
      simp only [update_of_ne hxb]
      exact h.cats x hx
  · intro x hx
    rw [hset.kept.main]
    obtain rfl | hxb := eq_or_ne x b
    · simp only [Ledger.record, update_self, decide_eq_true_eq] at hx
      refine ⟨hx, avail, update_self .., ?_⟩
      rw [hcats x (main_lt h.good hx), if_pos rfl]
    · simp only [Ledger.record, update_of_ne hxb] at hx ⊢
      obtain ⟨hlt, hrec⟩ := h.kept x hx
      refine ⟨hlt, ?_⟩
      rw [hcats x (main_lt h.good hlt), if_neg hxb]
      exact hrec

/-! ### What the calls answer -/

theorem fsmCatStep_eq : fsmCatStep = 32 := rfl

/-- A request is rounded up to the next category. -/
theorem needed_cases (h : fsmSpaceNeededToCat needed = .ok min) :
    needed ≤ maxFsmRequestSize ∧ 0 < min ∧ needed ≤ 32 * min := by
  rw [fsmSpaceNeededToCat] at h
  simp only at h
  have hmax : maxFsmRequestSize = 8160 := rfl
  split_ifs at h with _ _ hcap
  · cases h
    omega
  · rw [fsmCatStep_eq] at hcap
    omega
  · cases h
    rw [fsmCatStep_eq]
    omega

theorem needed_pos (h : fsmSpaceNeededToCat needed = .ok min) : 0 < min := (needed_cases h).2.1

/-- Space is rounded down. -/
theorem avail_cases (avail : Nat) : 32 * fsmSpaceAvailToCat avail ≤ avail ∨
    (fsmSpaceAvailToCat avail = 255 ∧ maxFsmRequestSize ≤ avail) := by
  rw [fsmSpaceAvailToCat, fsmCatStep_eq]
  split_ifs with hmax
  · exact .inr ⟨rfl, hmax⟩
  · omega
  · omega

/-- A category that was asked for stands for enough space. -/
theorem needed_le (h : fsmSpaceNeededToCat needed = .ok min) (hle : min ≤ fsmSpaceAvailToCat avail) :
    needed ≤ avail := by
  have hneed := needed_cases h
  have havail := avail_cases avail
  omega

theorem needed_error (h : fsmSpaceNeededToCat needed = .error msg) : ¬ needed ≤ maxFsmRequestSize := by
  rw [fsmSpaceNeededToCat] at h
  simp only at h
  split_ifs at h with hbig
  exact Nat.not_le.mpr hbig

/-- What an answer means for a request: a block of the relation for which enough was recorded, or, if
the map was in order before, none that has enough unless the search gave up. -/
structure Serves (led : Ledger) (needed min restarts blk : Nat) (tight : Prop) (r' : Rel) : Prop where
  found : blk ≠ invalidBlockNumber → blk < r'.mainBlocks ∧ ∃ avail, led.last blk = some avail ∧ needed ≤ avail
  none : tight → blk = invalidBlockNumber → 10000 < restarts ∨ ∀ b, b < r'.mainBlocks → cat r' b < min

theorem Inv.serves_found (h : Inv r' led) (tight : Prop) (hneed : fsmSpaceNeededToCat needed = .ok min)
    (hin : blk < r'.mainBlocks) (henough : min ≤ cat r' blk) :
    Serves led needed min restarts blk tight r' := by
  have hmin := needed_pos hneed
  constructor
  · intro _
    refine ⟨hin, ?_⟩
    cases h.cats blk (main_lt h.good hin) with
    | inl => omega
    | inr hrec =>
      obtain ⟨-, avail, hlast, hcat⟩ := hrec
      refine ⟨avail, hlast, needed_le hneed ?_⟩
      rw [← hcat]
      exact henough
  · have hle := h.good.main_le
    omega

theorem Inv.serves (h : Inv r' led) (hneed : fsmSpaceNeededToCat needed = .ok min)
    (hans : Answers min restarts blk r r') (htight : tight → Reach min r) :
    Serves led needed min restarts blk tight r' := by
  cases hans with
  | inl hfound => exact h.serves_found tight hneed hfound.1 hfound.2
  | inr hnone =>
    refine ⟨fun hblk => absurd hnone.1 hblk, fun ht _ => ?_⟩
    exact hnone.2.imp_right fun hall => hall (htight ht)

/-- What an answer of `getPageWithFreeSpace` says. -/
theorem Inv.gets (h : Inv r led) {out : (Nat × Nat) × Rel} (hout : getPageWithFreeSpace r needed = .ok out) :
    ∃ min, fsmSpaceNeededToCat needed = .ok min ∧ Inv out.2 led ∧ Sweeps r out.2 ∧
      Serves led needed min out.1.2 out.1.1 (Tight r) out.2 := by
  rw [getPageWithFreeSpace] at hout
  cases hneed : fsmSpaceNeededToCat needed with
  | error =>
    rw [hneed] at hout
    cases hout
  | ok min =>
    rw [hneed] at hout
    cases hout
    obtain ⟨hsweeps, hans⟩ := h.good.search h.real (needed_pos hneed)
    have hinv := h.sweeps hsweeps
    exact ⟨min, rfl, hinv, hsweeps, hinv.serves hneed hans (fun ht => ht.reach min)⟩

/-- The search after a recording finds what it would have found before: where the page of the old
block has another slot with enough, the levels above know of it. -/
theorem Tight.record (h : Tight r) (hgood : Good r) (hb : b < 2 ^ 32)
    (hset : SetSlot r (fsmLogicalToPhysical ⟨0, b / 4069⟩) (b % 4069) (fsmSpaceAvailToCat avail) min out)
    (hcats : ∀ x, x < blockBound → cat out.2 x = if x = b then fsmSpaceAvailToCat avail else cat r x)
    (hnear : ∀ x, x < r.mainBlocks → x / 4069 = b / 4069 → min ≤ cat out.2 x →
      ∃ slot, slot < 4069 ∧ slot ≠ b % 4069 ∧
        min ≤ slotAt out.2 (fsmLogicalToPhysical ⟨0, b / 4069⟩) slot) : Reach min out.2 := by
  intro x hx hmin
  rw [hset.kept.main] at hx
  have hupper := upper_of_bottom (bottom_page hb) hset.kept (main_lt hgood hx)
  rw [hupper.1, hupper.2]
  by_cases hpage : x / 4069 = b / 4069
  · obtain ⟨slot, hslot, hne, henough⟩ := hnear x hx hpage hmin
    rw [hset.set, update_of_ne hne, ← hpage] at henough
    obtain ⟨hmid, htop⟩ := h x hx
    have hle := henough.trans (hmid slot hslot)
    exact ⟨hle, hle.trans htop⟩
  · rw [hcats x (main_lt hgood hx), if_neg (by rintro rfl; exact hpage rfl)] at hmin
    exact h.reach min x hx hmin

/-- A search from a state in which the block is recorded. -/
theorem Inv.search_after (h : Inv r' led) (hneed : fsmSpaceNeededToCat needed = .ok min)
    (hreach : tight → Reach min r') :
    Inv (fsmSearch r' min).2 led ∧ (fsmSearch r' min).2.mainBlocks = r'.mainBlocks ∧
      Serves led needed min (fsmSearch r' min).1.2 (fsmSearch r' min).1.1 tight (fsmSearch r' min).2 := by
  obtain ⟨hsweeps, hans⟩ := h.good.search h.real (needed_pos hneed)
  have hinv := h.sweeps hsweeps
  exact ⟨hinv, hsweeps.main, hinv.serves hneed hans hreach⟩

/-- `recordAndGetPageWithFreeSpace`. -/
theorem Inv.recordAndGet (h : Inv r led) (avail : Nat) (hb : b < 2 ^ 32)
    (hneed : fsmSpaceNeededToCat needed = .ok min) :
    ∃ out, recordAndGetPageWithFreeSpace r b avail needed = .ok out ∧
      Inv out.2 (led.record r b avail) ∧ out.2.mainBlocks = r.mainBlocks ∧
      Serves (led.record r b avail) needed min out.1.2 out.1.1 (Tight r) out.2 := by
  have hmin := needed_pos hneed
  obtain ⟨hset, hcats⟩ := h.good.record avail min hb
  have hinv := h.record avail min hb
  simp only [recordAndGetPageWithFreeSpace, hneed, bind, Except.bind]
  generalize fsmSetAndSearch r (fsmGetLocation b).1 (fsmGetLocation b).2 (fsmSpaceAvailToCat avail)
    min = near at hset hcats hinv
  cases hcase : near.1 with
  | none =>
    rw [← hset.kept.main]
    refine ⟨_, rfl, hinv.search_after hneed ?_⟩
    intro htight
    refine htight.record h.good hb hset hcats ?_
    intro x _ hpage henough
    have hless := hset.missing (Nat.pos_iff_ne_zero.mp hmin) hcase (x % 4069) (slot_of_mod x)
    rw [cat, hpage] at henough
    omega
  | some slot =>
    obtain ⟨hslot, henough⟩ := hset.found slot hcase
    have hslot' : slot < 4069 := hslot
    have hblk : fsmGetHeapBlk (fsmGetLocation b).1 slot = 4069 * (b / 4069) + slot :=
      hinv.real.block (bottom_page hb) hslot' (hmin.trans_le henough)
    obtain ⟨hex, cached, hr, hcache⟩ := hinv.good.exist (4069 * (b / 4069) + slot)
    simp only [hblk, hex, hr, decide_eq_true_eq]
    have hinv' := hinv.sweeps (sweeps_of_kept hcache)
    split_ifs with hin
    · refine ⟨_, rfl, hinv', hset.kept.main, hinv'.serves_found _ hneed hin ?_⟩
      rw [cat_block _ hslot']
      exact henough
    · rw [← hset.kept.main]
      refine ⟨_, rfl, hinv'.search_after hneed ?_⟩
      intro htight
      refine htight.record h.good hb hset hcats ?_
      intro x hx hpage hxmin
      rw [hset.kept.main] at hin
      by_cases hxb : x = b
      · exact ⟨slot, hslot', by omega, henough⟩
      · refine ⟨x % 4069, slot_of_mod x, by omega, ?_⟩
        rw [cat, hpage] at hxmin
        exact hxmin

/-- What an answer of `recordAndGetPageWithFreeSpace` says. -/
theorem Inv.recordsAndGets (h : Inv r led) {out : (Nat × Nat) × Rel} (hb : b < 2 ^ 32)
    (hout : recordAndGetPageWithFreeSpace r b avail needed = .ok out) :
    ∃ min, fsmSpaceNeededToCat needed = .ok min ∧ Inv out.2 (led.record r b avail) ∧
      out.2.mainBlocks = r.mainBlocks ∧
      Serves (led.record r b avail) needed min out.1.2 out.1.1 (Tight r) out.2 := by
  cases hneed : fsmSpaceNeededToCat needed with
  | error =>
    rw [recordAndGetPageWithFreeSpace, hneed] at hout
    cases hout
  | ok min =>
    obtain ⟨out', hout', hrest⟩ := h.recordAndGet avail hb hneed
    rw [hout] at hout'
    cases hout'
    exact ⟨min, rfl, hrest⟩

theorem Ledger.cut_kept (h : (led.cut stays).kept b = true) : led.kept b = true ∧ stays b = true := by
  simpa only [Ledger.cut, Bool.and_eq_true] using h

section

variable (h : Inv r led)
include h

/-- What is kept of fewer blocks. -/
theorem Inv.cut (hgood : Good r') (hmain : r'.mainBlocks = r.mainBlocks)
    (hcats : ∀ b, b < blockBound → cat r' b = cat r b ∨ (stays b = false ∧ cat r' b = 0)) :
    Inv r' (led.cut stays) := by
  refine h.forget hgood rfl ?_ ?_
  · intro b hb
    rw [hmain]
    exact ⟨(Ledger.cut_kept hb).1, (h.kept b (Ledger.cut_kept hb).1).1⟩
  · intro b hb
    exact (hcats b hb).imp_right fun hgone => ⟨by simp [Ledger.cut, hgone.1], hgone.2⟩

/-- `freeSpaceMapPrepareTruncateRel` forgets nothing below the new end. -/
theorem Inv.prepareTruncate (hn : n < 2 ^ 32) :
    Inv (freeSpaceMapPrepareTruncateRel r n).2 (led.cut (fun b => decide (b < n))) := by
  have hsame : ∀ {r' : Rel}, Kept r r' (fun _ => False) → Inv r' (led.cut (fun b => decide (b < n))) := by
    intro r' hk
    refine h.cut hk.good hk.main ?_
    intro b _
    exact .inl (by rw [cat, cat, hk.slots _ id])
  rw [freeSpaceMapPrepareTruncateRel]
  by_cases hex : r.fsmExists = true
  · rw [if_pos hex]
    by_cases hslot : 0 < (fsmGetLocation n).2
    · simp only [if_pos hslot]
      obtain ⟨r₁, hread, -, ⟨hbuf, -⟩ | ⟨hbuf, hlt, hnew⟩⟩ := h.good.lookup (fsmGetLocation n).1
      · rw [hbuf]
        exact hsame hread
      · rw [hbuf]
        obtain ⟨hput, hslots⟩ := hread.good.setPage hlt hnew
          (fsmTruncateAvail_leaves (hread.good.whole _ hlt) (fsmGetLocation n).2)
        refine h.cut hput.good (hput.main.trans hread.main) ?_
        intro b hb
        by_cases hpage : fsmLogicalToPhysical ⟨0, b / 4069⟩ = fsmLogicalToPhysical (fsmGetLocation n).1
        · -- the page that is cut
          have hsub : b / 4069 = n / 4069 := congrArg FSMAddress.logpageno
            (physical_injective (bottom_inRange hb) ⟨Nat.zero_le _, bottom_page hn⟩ hpage)
          rw [cat, cat, hpage, hslots, ← hread.slots _ id, slotAt_of_lt hlt]
          simp only
          split_ifs with hgone
          · have hle : n % 4069 ≤ b % 4069 := hgone.1
            exact .inr ⟨decide_eq_false (by omega), rfl⟩
          · exact .inl rfl
        · exact .inl (by rw [cat, cat, hput.slots _ hpage, hread.slots _ id])
    · have hkept : Kept r { r with fsmCached := some r.fsmBlocks } (fun _ => False) :=
        h.good.cached (by simp) h.good.mainCached
      simp only [if_neg hslot]
      split_ifs
      · exact hsame hkept
      · exact hsame hkept
  · rw [if_neg hex]
    exact hsame (.refl h.good)

/-- A map that is cut shows nothing where it was. -/
theorem Inv.truncateMap (n : Nat) : Inv (step r (.truncateMap n)) (led.step r (.truncateMap n)) := by
  have hlt : ∀ blk, blk < Min.min r.fsmBlocks n → blk < r.fsmBlocks := by
    omega
  have hgood : Good (step r (.truncateMap n)) := by
    refine ⟨fun blk hb => h.good.whole blk (hlt blk hb), fun blk hb => h.good.fresh blk (hlt blk hb),
      ?_, ?_, h.good.mainCached, h.good.main_le⟩
    · intro hex
      have hzero := h.good.absent hex
      show Min.min r.fsmBlocks n = 0
      omega
    · rintro m ⟨⟩
      exact le_rfl
  refine h.cut hgood rfl ?_
  intro b _
  have hblocks : (FreeSpaceSearch.step r (.truncateMap n)).fsmBlocks = Min.min r.fsmBlocks n := rfl
  rw [cat, cat]
  by_cases hstays : fsmLogicalToPhysical ⟨0, b / 4069⟩ < n
  · refine .inl ?_
    by_cases hin : fsmLogicalToPhysical ⟨0, b / 4069⟩ < r.fsmBlocks
    · rw [slotAt_of_lt hin, slotAt_of_lt (by rw [hblocks]; omega)]
      rfl
    · rw [slotAt_of_le (Nat.le_of_not_lt hin), slotAt_of_le (by rw [hblocks]; omega)]
  · refine .inr ⟨decide_eq_false hstays, ?_⟩
    rw [slotAt_of_le (by rw [hblocks]; omega)]

theorem Inv.resize (hn : n ≤ invalidBlockNumber) (hcached : ∀ m, cached = some m → m ≤ n) :
    Inv (step r (.resize n cached)) (led.step r (.resize n cached)) := by
  refine h.forget ⟨h.good.whole, h.good.fresh, h.good.absent, h.good.fsmCached, hcached, hn⟩ rfl ?_ ?_
  · intro b hb
    obtain ⟨hk, hlt⟩ := Ledger.cut_kept hb
    exact ⟨hk, of_decide_eq_true hlt⟩
  · exact fun b _ => .inl rfl

theorem Inv.step {call : Call} (hcall : call.Valid) : Inv (step r call) (led.step r call) := by
  cases call with
  | record b avail => exact h.record avail 0 hcall
  | recordAndGet b avail needed =>
    simp only [FreeSpaceSearch.step, Ledger.step]
    cases hneed : fsmSpaceNeededToCat needed with
    | ok =>
      obtain ⟨out, hout, hinv, -, -⟩ := h.recordAndGet avail hcall hneed
      rw [if_pos (needed_cases hneed).1, hout]
      exact hinv
    | error =>
      rw [if_neg (needed_error hneed), recordAndGetPageWithFreeSpace, hneed]
      exact h
  | get needed =>
    simp only [FreeSpaceSearch.step]
    cases hout : getPageWithFreeSpace r needed with
    | error => exact h
    | ok =>
      obtain ⟨_, -, hinv, -⟩ := h.gets hout
      exact hinv
  | vacuum => exact h.sweeps (h.good.vacuum_sweeps 0 invalidBlockNumber)
  | vacuumRange start stop =>
    simp only [FreeSpaceSearch.step, freeSpaceMapVacuumRange]
    split_ifs
    · exact h.sweeps (h.good.vacuum_sweeps start stop)
    · exact h
  | prepareTruncate => exact h.prepareTruncate hcall
  | resize => exact h.resize hcall.1 hcall.2
  | truncateMap n => exact h.truncateMap n

end

theorem Reachable.inv (h : Reachable r led) : Inv r led := by
  induction h with
  | start nblocks hle =>
    refine ⟨⟨?_, ?_, fun _ => rfl, ?_, ?_, hle⟩, ?_, ?_⟩
    · exact fun _ hb => absurd hb (Nat.not_lt_zero _)
    · exact fun _ hb => absurd hb (Nat.not_lt_zero _)
    · exact nofun
    · exact nofun
    · intro b _
      refine .inl ?_
      rw [cat, slotAt_of_le (Nat.zero_le _)]
    · exact nofun
  | step call _ hcall ih => exact ih.step hcall

theorem recordedCat_eq (h : Good r) (b : Nat) : (recordedCat r b).1 = cat r b := by
  obtain ⟨r₁, hread, -, ⟨hbuf, hout⟩ | ⟨hbuf, hlt, -⟩⟩ := h.lookup (fsmGetLocation b).1
  · rw [recordedCat, hbuf, cat, ← hread.slots _ id]
    exact (congrFun (slotAt_of_le hout) (b % 4069)).symm
  · rw [recordedCat, hbuf, cat, ← hread.slots _ id]
    exact (congrFun (slotAt_of_lt hlt) (b % 4069)).symm

/-! ### The result -/

/-- What the free space map guarantees in every state that a run of calls reaches: a block that is
returned is one of the relation, with enough space recorded last; right after a vacuum no answer means
no block, unless the search gave up after its restarts; and the map has what was last recorded for
every block that was inside the relation and the map since. -/
theorem search_finds_recorded (r : Rel) (led : Ledger) (h : Reachable r led) :
    (∀ a b : FSMAddress, InRange a → InRange b → fsmLogicalToPhysical a = fsmLogicalToPhysical b → a = b) ∧
    (∀ needed out, getPageWithFreeSpace r needed = .ok out → out.1.1 ≠ invalidBlockNumber →
      out.1.1 < r.mainBlocks ∧ ∃ avail, led.last out.1.1 = some avail ∧ needed ≤ avail) ∧
    (∀ oldPage avail needed out, oldPage < 2 ^ 32 → recordAndGetPageWithFreeSpace r oldPage avail needed = .ok out →
      out.1.1 ≠ invalidBlockNumber → out.1.1 < r.mainBlocks ∧
        ∃ last, (led.record r oldPage avail).last out.1.1 = some last ∧ needed ≤ last) ∧
    (∀ needed cat out, fsmSpaceNeededToCat needed = .ok cat →
      getPageWithFreeSpace (freeSpaceMapVacuum r) needed = .ok out →
      out.1.1 = invalidBlockNumber → 10000 < out.1.2 ∨ ∀ b, b < r.mainBlocks → (recordedCat out.2 b).1 < cat ∧
          (recordedCat out.2 b).1 = (recordedCat r b).1) ∧
    (∀ oldPage avail needed cat out, oldPage < 2 ^ 32 → fsmSpaceNeededToCat needed = .ok cat →
      recordAndGetPageWithFreeSpace (freeSpaceMapVacuum r) oldPage avail needed = .ok out →
      out.1.1 = invalidBlockNumber → 10000 < out.1.2 ∨ ∀ b, b < r.mainBlocks → (recordedCat out.2 b).1 < cat) ∧
    (∀ b, led.kept b = true →
      ∃ avail, led.last b = some avail ∧ (recordedCat r b).1 = fsmSpaceAvailToCat avail) := by
  have hinv := h.inv
  have hswept := hinv.good.vacuum_sweeps 0 invalidBlockNumber
  have hvac : Inv (freeSpaceMapVacuum r) led := hinv.sweeps hswept
  have htight := hinv.good.vacuum_tight
  have hmain : (freeSpaceMapVacuum r).mainBlocks = r.mainBlocks := hswept.main
  refine ⟨fun a b => physical_injective, ?_, ?_, ?_, ?_, ?_⟩
  · intro needed out hout hblk
    obtain ⟨_, -, -, hsweeps, hserves⟩ := hinv.gets hout
    rw [← hsweeps.main]
    exact hserves.found hblk
  · intro oldPage avail needed out hold hout hblk
    obtain ⟨_, -, -, hsame, hserves⟩ := hinv.recordsAndGets hold hout
    rw [← hsame]
    exact hserves.found hblk
  · intro needed cat out hcat hout hblk
    obtain ⟨cat', hcat', hafter, hsweeps, hserves⟩ := hvac.gets hout
    cases hcat.symm.trans hcat'
    cases hserves.none htight hblk with
    | inl hmany => exact .inl hmany
    | inr hall =>
      refine .inr ?_
      intro b hb
      have hb' : b < (freeSpaceMapVacuum r).mainBlocks := by rw [hmain]; exact hb
      rw [recordedCat_eq hafter.good, recordedCat_eq hinv.good]
      refine ⟨hall b (by rw [hsweeps.main]; exact hb'), ?_⟩
      exact (hsweeps.cat_eq hvac.good hb').trans (hswept.cat_eq hinv.good hb)
  · intro oldPage avail needed cat out hold hcat hout hblk
    obtain ⟨cat', hcat', hafter, hsame, hserves⟩ := hvac.recordsAndGets hold hout
    cases hcat.symm.trans hcat'
    cases hserves.none htight hblk with
    | inl hmany => exact .inl hmany
    | inr hall =>
      refine .inr ?_
      intro b hb
      rw [recordedCat_eq hafter.good]
      exact hall b (by rw [hsame, hmain]; exact hb)
  · intro b hb
    rw [recordedCat_eq hinv.good]
    exact (hinv.kept b hb).2

/-- A relation of one block, with 100 bytes recorded for it. -/
theorem search_finds_recorded_one_block :
    ∃ r led, Reachable r led ∧ led.kept 0 = true ∧ (recordedCat r 0).1 = 3 := by
  have hstart : Reachable ⟨1, none, false, 0, none, fun _ => .zero⟩ .empty := .start 1 (by decide)
  have hrun := Reachable.step (.record 0 100) hstart (by decide : (0 : Nat) < 2 ^ 32)
  refine ⟨_, _, hrun, rfl, ?_⟩
  obtain ⟨avail, hlast, hcat⟩ := (search_finds_recorded _ _ hrun).2.2.2.2.2 0 rfl
  cases hlast
  exact hcat

end FreeSpaceSearch
