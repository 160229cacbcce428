import Pgrust.MultiXactRoundTrip

/-!
Each step of a backend keeps what is known of the multixacts.
-/
namespace MultiXact

open XidOrder Heap Nat
open Function (update update_apply update_of_ne update_self)

variable {h : History} {p : Nat → Progress} {c : Counters} {offsets members : Pages} {k b : Nat}
  {multi : MultiXactId} {j : Nat} {q : Progress}

section Recording

section

variable (he : Entered offsets h p)
include he

/-- An entry is written that belongs to a multixact, or to its neighbour. -/
theorem Entered.write (hn : Numbered c h) {v : MultiXactOffset}
    (hoid : h.oldestIndex ≤ b) (hb : b ≤ h.first + h.count)
    (hown : ∀ j, h.Live j → h.first + j = b → v = UInt32.ofNat (h.log j).pos)
    (hnext : ∀ j, h.Live j → h.first + j + 1 = b → v = UInt32.ofNat (beginning (h.log j).finish))
    (hq : q.own = true → (p k).own = true ∨ h.first + k = b)
    (hq' : q.next = true → (p k).next = true ∨ h.first + k + 1 = b) :
    Entered (writeOffsetEntry offsets (idOf b) v) h (update p k q) := by
  have hspan := hn.span
  have hother : ∀ a, h.oldestIndex ≤ a → a ≤ h.first + h.count → a ≠ b →
      readOffsetEntry (writeOffsetEntry offsets (idOf b) v) (idOf a) = readOffsetEntry offsets (idOf a) := by
    intro a hle hlt hne
    apply readOffsetEntry_other
    rcases Nat.lt_or_gt_of_ne hne with hab | hab
    · exact idOf_ne hab (by omega)
    · exact (idOf_ne hab (by omega)).symm
  have hsame := readOffsetEntry_same offsets (idOf b) v
  constructor
  · grind [History.Live, update_apply, Entered]
  · grind [History.Live, update_apply, Entered]

/-- A multixact's own entry. -/
theorem Entered.write_own (hn : Numbered c h) (hk : h.Live k) (hq : q.next = (p k).next) :
    Entered (writeOffsetEntry offsets (idOf (h.first + k)) (UInt32.ofNat (h.log k).pos)) h (update p k q) := by
  have hfollows := hn.follows
  apply he.write hn hk.2
  all_goals grind [History.Live]

/-- The entry after it. -/
theorem Entered.write_next (hn : Numbered c h) (hk : h.Live k) (hq : q.own = (p k).own) :
    Entered (writeOffsetEntry offsets (idOf (h.first + k + 1))
      (UInt32.ofNat (beginning (h.log k).finish))) h (update p k q) := by
  have hfollows := hn.follows
  apply he.write hn (hk.2.trans (le_succ _))
  all_goals grind [History.Live]

/-- Nothing is said of the entries when only members are written. -/
theorem Entered.note (hown : q.own = (p k).own)
    (hnext : q.next = (p k).next) : Entered offsets h (update p k q) := by
  all_goals grind [Entered, update_apply]

end

theorem Filled.note (hf : Filled members h p) (hq : q.written = (p k).written) :
    Filled members h (update p k q) := by
  all_goals grind [Filled, update_apply]

/-- Slots of live multixacts have different offsets. -/
theorem Numbered.slot_ne (hn : Numbered c h) (hx : h.oldestPos ≤ x) (hx' : x ≤ h.nextPos)
    (hy : h.oldestPos ≤ y) (hy' : y ≤ h.nextPos) (hcount : 0 < h.count) (hne : x ≠ y) :
    UInt32.ofNat x ≠ UInt32.ofNat y := by
  have hroom := hn.room hcount
  rcases Nat.lt_or_gt_of_ne hne with hlt | hlt
  · exact ofNat_inj_of_near hlt (by omega)
  · exact (ofNat_inj_of_near hlt (by omega)).symm

/-- Live multixacts have different slots. -/
theorem Numbered.slots_disjoint (hn : Numbered c h) (hj : h.Live j) (hk : h.Live k)
    (hx : x < (h.log j).members.length) (hy : y < (h.log k).members.length) (hne : j ≠ k) :
    (h.log j).pos + x ≠ (h.log k).pos + y := by
  have hbefore := hn.ordered j k
  have hafter := hn.ordered k j
  grind [History.Live, Rec.finish]

/-- The empty slot after a multixact is in no multixact. -/
theorem Numbered.unused_ne (hn : Numbered c h) (hk : k < h.count) (hy : y < (h.log k).members.length)
    (hj : j + 1 < h.count) (hzero : (h.log j).finish % 2 ^ 32 = 0) :
    (h.log j).finish ≠ (h.log k).pos + y := by
  have hfollows := hn.follows j hj
  have hbefore := hn.ordered k j
  have hafter := hn.ordered (j + 1) k
  grind [Rec.finish, beginning]

/-- A member is written. -/
theorem Filled.write (hf : Filled members h p) (hn : Numbered c h) (hk : h.Live k) {d : Nat}
    {m : MultiXactMember} (hm : (h.log k).members[d]? = some m) (hwritten : d ≤ (p k).written)
    (hq : q.written ≤ max (p k).written (d + 1)) :
    Filled (writeMember members (UInt32.ofNat ((h.log k).pos + d)) m) h (update p k q) := by
  have hd := (List.getElem?_eq_some_iff.mp hm).1
  have hpos := hn.livePos k hk
  have hend := hn.below k hk.1
  have hother : ∀ x, h.oldestPos ≤ x → x ≤ h.nextPos → x ≠ (h.log k).pos + d →
      UInt32.ofNat x ≠ UInt32.ofNat ((h.log k).pos + d) := by
    intro x hx hx' hne
    apply hn.slot_ne hx hx' _ _ (zero_lt_of_lt hk.1) hne
    all_goals grind [Rec.finish]
  constructor
  · intro j hj x m' hx hm'
    have hx' := (List.getElem?_eq_some_iff.mp hm').1
    have hpos' := hn.livePos j hj
    have hend' := hn.below j hj.1
    by_cases hsame : j = k ∧ x = d
    · grind [Holds, readMemberXid_same, readMemberFlags_same]
    · have hne : (h.log j).pos + x ≠ (h.log k).pos + d := by
        by_cases hjk : j = k
        · grind
        · exact hn.slots_disjoint hj hk hx' hd hjk
      have hoff := hother _ (by omega) (by grind [Rec.finish]) hne
      rw [Holds, readMemberXid_other m hoff, readMemberFlags_other m hoff]
      apply hf.written j hj x m' _ hm'
      grind [update_apply]
  · intro j hj hlast hzero
    have hpos' := hn.livePos j hj
    have hoff := hother (h.log j).finish (by grind [Rec.finish]) (hn.below j hj.1)
      (hn.unused_ne hk.1 hd hlast hzero)
    rw [(ofNat_eq_zero_iff _).mpr hzero] at hoff
    rw [readMemberXid_other m hoff]
    exact hf.unused j hj hlast hzero

end Recording

section Reading

/-- The counter stands where a reader of the newest multixact knows its end, or where there is a next
multixact, or where the end is not before slot zero. -/
theorem Numbered.saw (hn : Numbered c h) (hearly : Early c h) (hk : h.Live k) :
    Saw h k (idOf (h.first + k)) c.nextMXact c.nextOffset := by
  obtain ⟨hlt, hle⟩ := hk
  have hspan := hn.span
  have hsucc := idOf_add_one (h.first + k)
  constructor
  · intro heq
    obtain hlast | hlater : k + 1 = h.count ∨ k + 1 < h.count := by omega
    · rw [hn.nextOffset, hn.last k hlast]
    · -- the counter is further than the id after this one
      exfalso
      have hne : idOf (h.first + k + 1) ≠ idOf (h.first + h.count) := idOf_ne (by omega) (by omega)
      rcases hn.nextId with hnext | ⟨hone, hzero⟩
      · rcases hsucc with hs | ⟨-, hs⟩
        · rw [hnext, hs] at heq
          exact hne heq.symm
        · rw [hnext, hs] at heq
          exact idOf_pos _ heq
      · rw [hzero] at heq
        rcases hsucc with hs | ⟨hs, -⟩
        · rw [hs] at heq
          exact idOf_pos _ heq.symm
        · exact hne (hs.trans hone.symm)
  · intro hne hzero
    obtain hlast | hlater : k + 1 = h.count ∨ k + 1 < h.count := by omega
    · exfalso
      have hidx : h.first + k + 1 = h.first + h.count := by omega
      rw [hidx] at hsucc
      have hend := hn.last k hlast
      rcases hsucc with hs | ⟨hone, hs⟩
      · rcases hn.nextId with hnext | ⟨hone, -⟩
        · exact hne (hnext.trans hs.symm)
        · rw [hone] at hs
          have hprev : idOf (h.first + k) = 0 := by
            have hsub := congrArg (fun x => x - 1) hs
            simpa using hsub
          exact idOf_pos _ hprev
      · rcases hn.nextId with hnext | ⟨-, hnext⟩
        · apply hearly (by omega) hone (hnext.trans hone)
          rw [hend]
          exact hzero
        · exact hne (hnext.trans hs.symm)
    · exact hlater

/-- The id is found between the oldest and the next one. -/
theorem Numbered.placed_check (hn : Numbered c h) (hearly : Early c h) (hr : Reads h p k multi) :
    Placed h p (checkMulti c k multi) := by
  have hmulti : multi = idOf (h.first + k) := hr.works.multi.trans (hn.multi k hr.works.live.1)
  obtain ⟨hlt, hle⟩ := hr.works.live
  have hspan := hn.span
  have hold : multiXactIdPrecedes multi c.oldestMultiXactId = false := by
    rw [hmulti, hn.oldestId]
    exact multiXactIdPrecedes_idOf_false hle (by omega)
  have hnew : multiXactIdPrecedes multi c.nextMXact = true := by
    rw [hmulti]
    rcases hn.nextId with hnext | ⟨hone, hnext⟩
    · rw [hnext]
      exact multiXactIdPrecedes_idOf_true (by omega) (by omega)
    · rw [hnext]
      exact multiXactIdPrecedes_idOf_zero (by omega) (by omega) hone
  have hsaw := hn.saw hearly hr.works.live
  rw [← hmulti] at hsaw
  rw [checkMulti, hold, hnew]
  exact ⟨hr, hsaw⟩

/-- The next entry gives the length, or one more before slot zero. -/
theorem Entered.placed_measure (he : Entered offsets h p) (hn : Numbered c h) (hr : Reads h p k multi)
    (hs : Saw h k multi nextMXact nextOffset) :
    Placed h p (measure offsets k multi nextMXact nextOffset (UInt32.ofNat (h.log k).pos)) := by
  have hmulti : multi = idOf (h.first + k) := hr.works.multi.trans (hn.multi k hr.works.live.1)
  have hshort := hn.short k hr.works.live.1
  rw [measure]
  split
  case isTrue heq =>
    rw [hs.newest heq, Rec.finish, rounds_ofNat (by omega)]
    exact ⟨hr, 0, 0, Nat.zero_add _, Nat.zero_le _, fun h0 => absurd h0 (by decide), rfl, rfl⟩
  case isFalse hne =>
    have hentry : readOffsetEntry offsets (nextMultiXactId multi) = UInt32.ofNat (beginning (h.log k).finish) := by
      rw [hmulti, nextMultiXactId_idOf]
      exact he.next k hr.works.live hr.recorded.next
    have hnonzero : UInt32.ofNat (beginning (h.log k).finish) ≠ 0 := by
      rw [ne_eq, ofNat_eq_zero_iff]
      exact beginning_mod _
    rw [hentry, if_neg hnonzero, beginning]
    split
    case isTrue hzero =>
      have hmore := hs.older hne hzero
      rw [Rec.finish, Nat.add_assoc, rounds_ofNat hshort]
      exact ⟨hr, 0, 1, Nat.zero_add _, le_rfl, fun _ => ⟨hzero, hmore⟩, rfl, rfl⟩
    case isFalse =>
      rw [Rec.finish, rounds_ofNat (by omega)]
      exact ⟨hr, 0, 0, Nat.zero_add _, Nat.zero_le _, fun h0 => absurd h0 (by decide), rfl, rfl⟩

/-- A slot gives a member, or is the empty one. -/
theorem Filled.placed_scanSlot (hf : Filled members h p) (hn : Numbered c h)
    (hp : Placed h p (.scan k multi off (left + 1) out)) :
    Placed h p (scanSlot members k multi off left out) := by
  obtain ⟨hr, j, extra, hj, hle, hextra, hoff, hout⟩ := hp
  have hlive := hr.works.live
  have hnext : off + 1 = UInt32.ofNat ((h.log k).pos + (j + 1)) := by
    rw [hoff, ← Nat.add_assoc, ← ofNat_add_ofNat _ 1]
    rfl
  by_cases hlt : j < (h.log k).members.length
  · have hget : (h.log k).members[j]? = some (h.log k).members[j] := List.getElem?_eq_getElem hlt
    have hslot := hf.written k hlive j _ (hlt.trans_le hr.recorded.written) hget
    rw [Holds, ← hoff] at hslot
    have hvalid := hn.valid k hlive.1 _ (List.getElem_mem hlt)
    rw [scanSlot, hslot.1, hslot.2, mxstatusFromWord_toWord, hvalid]
    refine ⟨hr, j + 1, extra, by omega, hle, hextra, hnext, ?_⟩
    rw [List.take_add_one, hget, hout]
    rfl
  · -- only the round for slot zero is left
    obtain rfl : extra = 1 := by omega
    obtain rfl : j = (h.log k).members.length := by omega
    obtain ⟨hzero, hmore⟩ := hextra rfl
    have hfinish : off = UInt32.ofNat (h.log k).finish := hoff
    have hslot : readMemberXid members off = 0 := by
      rw [hfinish, (ofNat_eq_zero_iff _).mpr hzero]
      exact hf.unused k hlive hmore hzero
    rw [scanSlot, hslot]
    refine ⟨hr, (h.log k).members.length + 1, 1, by omega, hle, hextra, hnext, ?_⟩
    rw [hout, List.take_length, List.take_of_length_le (le_succ _)]

end Reading

section Allocating

theorem Numbered.fixId_eq (hn : Numbered c h) : fixId c.nextMXact = idOf (h.first + h.count) := by
  rcases hn.nextId with hnext | ⟨hone, hnext⟩
  · rw [hnext, fixId_idOf]
  · rw [hnext, hone]
    rfl

/-- The counter leaves zero. -/
theorem Numbered.fix (hn : Numbered c h) : Numbered { c with nextMXact := idOf (h.first + h.count) } h :=
  { hn with nextId := .inl rfl }

theorem Early.fix (hearly : Early c h) (hn : Numbered c h) (hzero : c.nextMXact = 0 → h.nextPos % 2 ^ 32 ≠ 0) :
    Early { c with nextMXact := idOf (h.first + h.count) } h := by
  intro hcount hone hnext
  rcases hn.nextId with hsame | ⟨-, h0⟩
  · exact hearly hcount hone (hsame.trans hnext)
  · exact hzero h0

/-- The page for the id to come takes no entry away. -/
theorem Entered.extend (he : Entered offsets h p) (hn : Numbered c h) :
    Entered (extendMultiXactOffset offsets (idOf (h.first + h.count) + 1)) h p := by
  have hspan := hn.span
  constructor
  · intro j hj
    obtain ⟨hlt, hle⟩ := hj
    rw [extendMultiXactOffset_keeps offsets (by omega) (by omega)]
    exact he.own j ⟨hlt, hle⟩
  · intro j hj
    obtain ⟨hlt, hle⟩ := hj
    rw [extendMultiXactOffset_keeps offsets (by omega) (by omega)]
    exact he.next j ⟨hlt, hle⟩

theorem History.add_log_old (hk : k < h.count) : (h.add multi offset new).log k = h.log k := by
  exact update_of_ne (Nat.ne_of_lt hk) _ _

theorem History.add_log_new : (h.add multi offset new).log h.count = ⟨multi, offset, new, beginning h.nextPos⟩ := by
  exact update_self _ _ _

/-- The history goes on by a new multixact. -/
theorem History.grows_add : Grows h p (h.add multi offset new) (update p h.count q) := by
  constructor
  · exact le_succ _
  · exact fun k hk => History.add_log_old hk
  · intro k hk
    rw [update_of_ne (Nat.ne_of_lt hk)]
    exact ⟨id, id, le_rfl⟩

theorem History.forall_add {P : Nat → Rec → Prop} (hold : ∀ k < h.count, P k (h.log k))
    (hnew : P h.count ⟨multi, offset, new, beginning h.nextPos⟩) :
    ∀ k < (h.add multi offset new).count, P k ((h.add multi offset new).log k) := by
  intro k hk
  obtain hlt | rfl : k < h.count ∨ k = h.count := by
    have hcount : (h.add multi offset new).count = h.count + 1 := rfl
    omega
  · rw [History.add_log_old hlt]
    exact hold k hlt
  · rw [History.add_log_new]
    exact hnew

/-- The counters and the history after an allocation. -/
theorem Numbered.add (hn : Numbered c h) (hnext : c.nextMXact = idOf (h.first + h.count))
    (hvalid : ∀ m ∈ new, transactionIdIsValid m.xid = true) (hshort : new.length + 1 < 2 ^ 31)
    (hspan : h.first + (h.count + 1) < h.oldestIndex + 2 ^ 31)
    (hroom : beginning h.nextPos + new.length + 1636 ≤ h.oldestPos + 2 ^ 32) :
    Numbered { c with
        nextMXact := c.nextMXact + 1
        nextOffset := c.nextOffset + UInt32.ofNat (slotsFor c.nextOffset new.length) }
      (h.add (idOf (h.first + h.count)) (UInt32.ofNat (beginning h.nextPos)) new) := by
  have hge := beginning_ge h.nextPos
  have holdestPos := hn.oldestPos
  constructor
  case span => exact hspan
  case oldest => exact le_succ_of_le hn.oldest
  case oldestId => exact hn.oldestId
  case nextId =>
    show c.nextMXact + 1 = idOf (h.first + h.count + 1) ∨ _
    rw [hnext]
    exact idOf_add_one _
  case nextOffset =>
    show c.nextOffset + UInt32.ofNat (slotsFor c.nextOffset new.length) = _
    rw [hn.nextOffset, ofNat_add_ofNat, slotsFor_ofNat]
    rfl
  case oldestPos => exact holdestPos.trans (hge.trans (Nat.le_add_right _ _))
  case room => exact fun _ => hroom
  case multi => exact History.forall_add (P := fun k r => r.multi = idOf (h.first + k)) hn.multi rfl
  case offset => exact History.forall_add (P := fun _ r => r.offset = UInt32.ofNat r.pos) hn.offset rfl
  case start => exact History.forall_add (P := fun _ r => r.pos % 2 ^ 32 ≠ 0) hn.start (beginning_mod _)
  case valid =>
    exact History.forall_add (P := fun _ r => ∀ m ∈ r.members, transactionIdIsValid m.xid = true) hn.valid hvalid
  case short => exact History.forall_add (P := fun _ r => r.members.length + 1 < 2 ^ 31) hn.short hshort
  case follows =>
    intro k hk
    have hk : k < h.count := lt_of_succ_lt_succ hk
    rw [History.add_log_old hk]
    obtain hlt | hlast : k + 1 < h.count ∨ k + 1 = h.count := by omega
    · rw [History.add_log_old hlt]
      exact hn.follows k hlt
    · rw [hlast, History.add_log_new, ← hn.last k hlast]
  case last =>
    intro k hk
    obtain rfl : k = h.count := Nat.succ.inj hk
    rw [History.add_log_new]
    rfl
  case ordered =>
    intro j k hjk hk
    have hk : k < h.count + 1 := hk
    rw [History.add_log_old (by omega)]
    obtain hlt | rfl : k < h.count ∨ k = h.count := by omega
    · rw [History.add_log_old hlt]
      exact hn.ordered j k hjk hlt
    · rw [History.add_log_new]
      exact (hn.below j hjk).trans hge
  case below =>
    apply History.forall_add (P := fun _ r => r.finish ≤ beginning h.nextPos + new.length)
    · intro k hk
      exact (hn.below k hk).trans (hge.trans (Nat.le_add_right _ _))
    · exact le_rfl
  case livePos =>
    intro k hk
    apply History.forall_add (P := fun k r => h.oldestIndex ≤ h.first + k → h.oldestPos ≤ r.pos)
    · exact fun k hk hle => hn.livePos k ⟨hk, hle⟩
    · exact fun _ => holdestPos.trans hge
    · exact hk.1
    · exact hk.2

/-- An allocation does not leave the counter at one. -/
theorem Early.add (hnext : c.nextMXact = idOf n) :
    Early { c with nextMXact := c.nextMXact + 1, nextOffset := nextOffset } (h.add multi offset new) := by
  intro _ _ hone
  have hzero : c.nextMXact = 0 := by simpa using hone
  exact absurd (hnext.symm.trans hzero) (idOf_pos _)

/-- Nothing is recorded of a new multixact. -/
theorem Entered.add (he : Entered offsets h p) :
    Entered offsets (h.add multi offset new) (update p h.count ⟨false, false, 0, false⟩) := by
  all_goals grind [Entered, History.Live, History.add, History.add_log_old, update_apply]

/-- The slots in use keep their pages. -/
theorem extend_readMember (members) (hold : h.oldestPos ≤ x) (hx : x < h.nextPos)
    (hroom : h.nextPos + n + 1636 ≤ h.oldestPos + 2 ^ 32) :
    readMemberXid (extendMultiXactMember members (UInt32.ofNat h.nextPos) n) (UInt32.ofNat x) =
        readMemberXid members (UInt32.ofNat x) ∧
      readMemberFlags (extendMultiXactMember members (UInt32.ofNat h.nextPos) n) (UInt32.ofNat x) =
        readMemberFlags members (UInt32.ofNat x) := by
  have hkeeps := extendMultiXactMember_keeps members hold hx hroom
  constructor
  · exact hkeeps _
  · rw [readMemberFlags, readMemberFlags, hkeeps]

/-- The new slots take no member away, and slot zero is empty when they begin after it. -/
theorem Filled.add (hf : Filled members h p) (hn : Numbered c h)
    (hroom : beginning h.nextPos + new.length + 1636 ≤ h.oldestPos + 2 ^ 32) :
    Filled (extendMultiXactMember members c.nextOffset (slotsFor c.nextOffset new.length))
      (h.add multi offset new) (update p h.count ⟨false, false, 0, false⟩) := by
  have hslots := slotsFor_ofNat h.nextPos new.length
  rw [hn.nextOffset]
  constructor
  · intro j hj x m hx hm
    obtain rfl | hnew := eq_or_ne j h.count
    · rw [update_self] at hx
      exact absurd hx (Nat.not_lt_zero x)
    · have hlt : j < h.count := Nat.lt_of_le_of_ne (le_of_lt_succ hj.1) hnew
      rw [update_of_ne hnew] at hx
      rw [History.add_log_old hlt] at hm ⊢
      have hlen := (List.getElem?_eq_some_iff.mp hm).1
      have hpos := hn.livePos j ⟨hlt, hj.2⟩
      have hend := hn.below j hlt
      rw [Rec.finish] at hend
      have hkeeps := extend_readMember members (h := h) (x := (h.log j).pos + x)
        (n := slotsFor (UInt32.ofNat h.nextPos) new.length) (by omega) (by omega) (by omega)
      rw [Holds, hkeeps.1, hkeeps.2]
      exact hf.written j ⟨hlt, hj.2⟩ x m hx hm
  · intro j hj hmore hzero
    have hlt : j < h.count := lt_of_succ_lt_succ hmore
    rw [History.add_log_old hlt] at hzero
    obtain hmore' | hlast : j + 1 < h.count ∨ j + 1 = h.count := by omega
    · have hpos := hn.livePos j ⟨hlt, hj.2⟩
      have hfollows := hn.follows j hmore'
      have hend := hn.below (j + 1) hmore'
      rw [beginning, if_pos hzero] at hfollows
      rw [Rec.finish] at hend
      have hkeeps := extend_readMember members (h := h) (x := (h.log j).finish)
        (n := slotsFor (UInt32.ofNat h.nextPos) new.length)
        (hpos.trans (Nat.le_add_right _ _)) (by omega) (by omega)
      rw [(ofNat_eq_zero_iff _).mpr hzero] at hkeeps
      rw [hkeeps.1]
      exact hf.unused j ⟨hlt, hj.2⟩ hmore' hzero
    · rw [← hn.last j hlast] at hzero
      apply extendMultiXactMember_zero _ hzero
      · rw [slotsFor, if_pos ((ofNat_eq_zero_iff _).mpr hzero)]
        exact succ_pos _
      · have hle := hn.oldestPos
        omega

theorem Finished.add (hd : Finished h p) :
    Finished (h.add multi offset new) (update p h.count ⟨false, false, 0, false⟩) := by
  grind [Finished, History.add, History.add_log_old, update_apply]

end Allocating

end MultiXact
