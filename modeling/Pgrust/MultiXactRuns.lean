import Pgrust.MultiXactSteps

/-!
What is known of the multixacts holds in every run in which no backend meets the counter at zero in its
second section.
-/
namespace MultiXact

open XidOrder Heap List Nat
open Function (update_self forall_update_iff update update_of_ne update_idem)

variable {ι : Type} [DecidableEq ι] {s s' : State ι} {i : ι} {k : Nat} {pc : Pc} {multi : MultiXactId}
  {off offset : MultiXactOffset}

/-- The condition on the steps. The room is that of a page of members, which is cleared as a whole. -/
structure Careful (s : State ι) (i : ι) (s' : State ι) : Prop where
  span : s'.history.first + s'.history.count < s'.history.oldestIndex + 2 ^ 31
  room : s'.history.nextPos + 1636 ≤ s'.history.oldestPos + 2 ^ 32
  short : ∀ members, s'.pc i = .create members → members.length + 1 < 2 ^ 31
  again : ∀ members, s.pc i = .warned members false → s.shared.counters.nextMXact ≠ 0
  early : ∀ members, s.pc i = .create members → s.shared.counters.nextMXact = 0 →
    s.shared.counters.nextOffset = 0 → endsEarly s.shared members.length = false

theorem State.goto_self (pc : Pc) : (s.goto i pc).pc i = pc := update_self _ _ _

/-- A step that only moves on. -/
theorem Inv.goto (h : Inv s) (hp : Placed s.history s.progress pc) : Inv (s.goto i pc) := by
  constructor
  case numbered => exact h.numbered
  case early => exact h.early
  case entered => exact h.entered
  case filled => exact h.filled
  case finished => exact h.finished
  case placed =>
    apply (forall_update_iff s.pc fun _ pc => Placed s.history s.progress pc).mpr
    exact ⟨hp, fun j _ => h.placed j⟩

/-- A step that records something of a multixact. -/
theorem Inv.note (h : Inv s) (hle : (s.progress k).Le q)
    (hentered : Entered offsets s.history (update s.progress k q))
    (hfilled : Filled members s.history (update s.progress k q))
    (hdone : q.done = true → Recorded (s.history.log k) q) (hp : Placed s.history (update s.progress k q) pc) :
    Inv ((State.note { s with shared := { s.shared with offsets := offsets, members := members } } k q).goto
      i pc) := by
  have hgrows : Grows s.history s.progress s.history (update s.progress k q) := by
    constructor
    · exact Nat.le_refl _
    · exact fun _ _ => rfl
    · intro j _
      by_cases hj : j = k
      · rw [hj, update_self]
        exact hle
      · rw [update_of_ne hj]
        exact ⟨id, id, Nat.le_refl _⟩
  constructor
  case numbered => exact h.numbered
  case early => exact h.early
  case entered => exact hentered
  case filled => exact hfilled
  case finished =>
    apply (forall_update_iff s.progress fun j p =>
      j < s.history.count → p.done = true → Recorded (s.history.log j) p).mpr
    exact ⟨fun _ => hdone, fun j _ => h.finished j⟩
  case placed =>
    apply (forall_update_iff s.pc fun _ pc => Placed s.history (update s.progress k q) pc).mpr
    exact ⟨hp, fun j _ => (h.placed j).grows hgrows fun _ _ hlive => hlive⟩

/-- The bounds after a step. -/
def Fits (h : History) : Prop :=
  h.first + h.count < h.oldestIndex + 2 ^ 31 ∧ h.nextPos + 1636 ≤ h.oldestPos + 2 ^ 32

/-- The wrap-around limit is reached. -/
def Refuses (s : Shared) (nmembers : Nat) : Prop :=
  (s.limits.oldestOffsetKnown && multiXactOffsetWouldWrap s.limits.offsetStopLimit s.counters.nextOffset
    (UInt32.ofNat (slotsFor s.counters.nextOffset nmembers))) = true

variable {members : List MultiXactMember}

section

variable (h : Inv s)
include h

/-- A section that allocates, or finds no room. -/
theorem Inv.allocate (hn : Numbered c s.history) (hnext : c.nextMXact = idOf (s.history.first + s.history.count))
    (hearly : Refuses { s.shared with counters := c } members.length → Early c s.history)
    (hvalid : ∀ m ∈ members, transactionIdIsValid m.xid = true) (hshort : members.length + 1 < 2 ^ 31)
    (hfits : Fits (s.afterSection i members
      (allocate { s.shared with counters := c } c.nextMXact members.length)).history) :
    Inv (s.afterSection i members (allocate { s.shared with counters := c } c.nextMXact members.length)) := by
  have hentered := h.entered.extend hn
  rw [← hnext] at hentered
  rw [MultiXact.allocate] at hfits ⊢
  split at hfits
  case isTrue hwrap =>
    rw [if_pos hwrap]
    apply Inv.goto (s := { s with shared := { s.shared with
      counters := c, offsets := extendMultiXactOffset s.shared.offsets (c.nextMXact + 1) } })
    · exact { h with numbered := hn, early := hearly hwrap, entered := hentered }
    · trivial
  case isFalse hwrap =>
    rw [if_neg hwrap]
    obtain ⟨hspan, hroom⟩ := hfits
    have hoffset : (if c.nextOffset = 0 then 1 else c.nextOffset) = UInt32.ofNat (beginning s.history.nextPos) := by
      rw [hn.nextOffset]
      exact firstSlot_ofNat _
    have hadd := hn.add hnext hvalid hshort hspan hroom
    rw [← hnext] at hadd
    show Inv (State.goto { s with
        shared := _
        history := s.history.add c.nextMXact (if c.nextOffset = 0 then 1 else c.nextOffset) members
        progress := update s.progress s.history.count ⟨false, false, 0, false⟩ }
      i (.own s.history.count c.nextMXact (if c.nextOffset = 0 then 1 else c.nextOffset) members))
    rw [hoffset]
    apply Inv.goto
    · constructor
      case numbered => exact hadd
      case early => exact Early.add hnext
      case entered => exact hentered.add
      case filled => exact h.filled.add hn hroom
      case finished => exact h.finished.add
      case placed =>
        intro j
        apply (h.placed j).grows History.grows_add
        exact fun k _ hlive => ⟨lt_succ_of_lt hlive.1, hlive.2⟩
    · refine ⟨⟨⟨lt_succ_self _, hn.oldest⟩, ?_⟩, ?_, ?_⟩
      all_goals rw [History.add_log_new]

/-- The first section. -/
theorem Inv.first (hpc : s.pc i = .create members)
    (hearly : s.shared.counters.nextMXact = 0 → s.shared.counters.nextOffset = 0 →
      endsEarly s.shared members.length = false)
    (hfits : Fits (s.afterSection i members (getNewFirst s.shared members.length)).history) :
    Inv (s.afterSection i members (getNewFirst s.shared members.length)) := by
  have hn := h.numbered
  have hp := h.placed i
  rw [hpc] at hp
  obtain ⟨hvalid, hshort⟩ := hp
  have hzero : s.shared.counters.nextMXact = 0 → s.shared.counters.nextOffset ≠ 0 →
      s.history.nextPos % 2 ^ 32 ≠ 0 := by
    intro _ hne
    rw [hn.nextOffset, ne_eq, ofNat_eq_zero_iff] at hne
    exact hne
  -- with both counters at zero the section is known to allocate
  have hends : s.shared.counters.nextMXact = 0 → endsEarly s.shared members.length = true →
      s.history.nextPos % 2 ^ 32 ≠ 0 := by
    intro h0 hends
    apply hzero h0
    intro hoff
    rw [hearly h0 hoff] at hends
    exact absurd hends (by decide)
  have hone : s.shared.counters.nextMXact = 0 → idOf (s.history.first + s.history.count) = 1 := by
    intro h0
    rw [← hn.fixId_eq, h0]
    rfl
  rw [getNewFirst, hn.fixId_eq] at hfits ⊢
  split at hfits
  case isTrue hvac =>
    rw [if_pos hvac]
    apply Inv.goto (s := { s with shared := { s.shared with counters := { s.shared.counters with
      nextMXact := idOf (s.history.first + s.history.count) } } })
    · refine { h with numbered := hn.fix, early := h.early.fix hn fun h0 => hends h0 ?_ }
      rw [hone h0] at hvac
      rw [endsEarly, Bool.or_eq_true]
      exact .inl hvac
    · exact ⟨hvalid, hshort⟩
  case isFalse hvac =>
    rw [if_neg hvac]
    apply h.allocate hn.fix rfl _ hvalid hshort hfits
    intro hrefuses
    apply h.early.fix hn
    intro h0 hmod
    have hoff : s.shared.counters.nextOffset = 0 := by
      rw [hn.nextOffset, ofNat_eq_zero_iff]
      exact hmod
    apply hends h0 _ hmod
    rw [endsEarly, Bool.or_eq_true]
    right
    rw [Refuses] at hrefuses
    rw [hoff] at hrefuses
    exact hrefuses

/-- The second section. -/
theorem Inv.again (hpc : s.pc i = .warned members false) (hzero : s.shared.counters.nextMXact ≠ 0)
    (hfits : Fits (s.afterSection i members (getNewAgain s.shared members.length)).history) :
    Inv (s.afterSection i members (getNewAgain s.shared members.length)) := by
  have hn := h.numbered
  have hp := h.placed i
  rw [hpc] at hp
  have hnext : s.shared.counters.nextMXact = idOf (s.history.first + s.history.count) :=
    hn.nextId.resolve_right fun hskip => hzero hskip.2
  rw [getNewAgain, hn.fixId_eq, ← hnext] at hfits ⊢
  exact h.allocate hn hnext (fun _ => h.early) hp.1 hp.2 hfits

/-- A creator writes its own entry. -/
theorem Inv.own (hp : Placed s.history s.progress (.own k multi offset members)) :
    Inv (((s.setOffsets (writeOffsetEntry s.shared.offsets multi offset)).note k
      { s.progress k with own := true }).goto i (.next k multi offset members)) := by
  obtain ⟨hw, ho, hm⟩ := hp
  have hmulti : multi = idOf (s.history.first + k) := hw.multi.trans (h.numbered.multi k hw.live.1)
  apply h.note
  · exact ⟨fun _ => rfl, id, Nat.le_refl _⟩
  · rw [hmulti, ho, h.numbered.offset k hw.live.1]
    exact h.entered.write_own h.numbered hw.live rfl
  · exact h.filled.note rfl
  · intro hdone
    have hr := h.finished k hw.live.1 hdone
    exact ⟨rfl, hr.next, hr.written⟩
  · refine ⟨hw, ho, hm, ?_⟩
    rw [update_self]

/-- And the next one. -/
theorem Inv.next {members : List MultiXactMember}
    (hp : Placed s.history s.progress (.next k multi offset members)) :
    Inv (((s.setOffsets (writeOffsetEntry s.shared.offsets (nextMultiXactId multi)
      (nextMemberOffset offset members.length))).note k { s.progress k with next := true }).goto i
        (.write k multi offset members)) := by
  obtain ⟨hw, ho, hm, hown⟩ := hp
  have hmulti : multi = idOf (s.history.first + k) := hw.multi.trans (h.numbered.multi k hw.live.1)
  have hoffset : offset = UInt32.ofNat (s.history.log k).pos := ho.trans (h.numbered.offset k hw.live.1)
  apply h.note
  · exact ⟨id, fun _ => rfl, Nat.le_refl _⟩
  · rw [hmulti, nextMultiXactId_idOf, hoffset, nextMemberOffset_ofNat, hm]
    exact h.entered.write_next h.numbered hw.live rfl
  · exact h.filled.note rfl
  · intro hdone
    have hr := h.finished k hw.live.1 hdone
    exact ⟨hr.own, rfl, hr.written⟩
  · rw [Placed, update_self]
    exact ⟨hw, hown, rfl, [], hm.symm, hoffset, Nat.zero_le _⟩

/-- And both, when they are on one page. -/
theorem Inv.ownSame (hp : Placed s.history s.progress (.own k multi offset members)) :
    Inv (((s.setOffsets (writeOffsetEntry (writeOffsetEntry s.shared.offsets multi offset)
      (nextMultiXactId multi) (nextMemberOffset offset members.length))).note k
        { s.progress k with own := true, next := true }).goto i (.write k multi offset members)) := by
  have hown := h.own (i := i) hp
  have hpc := hown.placed i
  rw [State.goto_self] at hpc
  have hnext := hown.next (i := i) hpc
  simp only [State.goto, State.note, State.setOffsets, update_idem, update_self] at hnext ⊢
  exact hnext

/-- A creator writes a member. -/
theorem Inv.write {m : MultiXactMember} {todo : List MultiXactMember}
    (hp : Placed s.history s.progress (.write k multi off (m :: todo))) :
    Inv (((s.setMembers (writeMember s.shared.members off m)).note k { s.progress k with
        written := max (s.progress k).written ((s.history.log k).members.length - todo.length) }).goto i
          (.write k multi (off + 1) todo)) := by
  obtain ⟨hw, hown, hnext, done, hmembers, hoff, hdone⟩ := hp
  have hget : (s.history.log k).members[done.length]? = some m := by
    rw [hmembers, getElem?_append_right (Nat.le_refl _), Nat.sub_self]
    rfl
  have hlen : (s.history.log k).members.length - todo.length = done.length + 1 := by
    rw [hmembers, length_append, length_cons]
    omega
  rw [hlen]
  apply h.note
  · exact ⟨id, id, Nat.le_max_left _ _⟩
  · exact h.entered.note rfl rfl
  · rw [hoff]
    exact h.filled.write h.numbered hw.live hget hdone (Nat.le_refl _)
  · intro hfin
    have hr := h.finished k hw.live.1 hfin
    exact ⟨hr.own, hr.next, hr.written.trans (Nat.le_max_left _ _)⟩
  · rw [Placed, update_self]
    refine ⟨hw, hown, hnext, done ++ [m], ?_, ?_, ?_⟩
    · rw [hmembers, append_assoc]
      rfl
    · rw [hoff, length_append, ← Nat.add_assoc, ← ofNat_add_ofNat _ [m].length]
      rfl
    · rw [length_append]
      exact Nat.le_max_right _ _

/-- A creator has written all. -/
theorem Inv.wrote (hp : Placed s.history s.progress (.write k multi off [])) :
    Inv ((s.note k { s.progress k with done := true }).goto i (.returned k multi)) := by
  obtain ⟨hw, hown, hnext, done, hmembers, hoff, hdone⟩ := hp
  have hr : Recorded (s.history.log k) { s.progress k with done := true } := by
    refine ⟨hown, hnext, ?_⟩
    rw [hmembers, append_nil]
    exact hdone
  apply h.note
  · exact ⟨id, id, Nat.le_refl _⟩
  · exact h.entered.note rfl rfl
  · exact h.filled.note rfl
  · exact fun _ => hr
  · rw [Placed, update_self]
    exact ⟨hw.live.1, hr, hw.multi⟩

end

theorem storedOrder_valid (hvalid : ∀ m ∈ given, transactionIdIsValid m.xid = true) :
    ∀ m ∈ storedOrder given, transactionIdIsValid m.xid = true :=
  fun m hm => hvalid m (mem_mergeSort.mp hm)

/-- Every step of a backend keeps what is known. -/
theorem Inv.move (h : Inv s) (hmove : Move s i s') (hcareful : Careful s i s') : Inv s' := by
  have hp := h.placed i
  have hfits : Fits s'.history := ⟨hcareful.span, hcareful.room⟩
  cases hmove with
  | create given hpc hvalid =>
    apply h.goto
    exact ⟨storedOrder_valid hvalid, hcareful.short _ (State.goto_self _)⟩
  | first members hpc => exact h.first hpc (hcareful.early members hpc) hfits
  | stopped | leave => exact h.goto trivial
  | again members hpc => exact h.again hpc (hcareful.again members hpc) hfits
  | ownSame k multi offset members hpc =>
    rw [hpc] at hp
    exact h.ownSame hp
  | ownOther k multi offset members hpc =>
    rw [hpc] at hp
    exact h.own hp
  | next k multi offset members hpc =>
    rw [hpc] at hp
    exact h.next hp
  | write k multi off m todo hpc =>
    rw [hpc] at hp
    exact h.write hp
  | wrote k multi off hpc =>
    rw [hpc] at hp
    exact h.wrote hp
  | read k hpc hk hdone hlive =>
    apply h.goto
    exact ⟨⟨⟨hk, hlive⟩, rfl⟩, h.finished k hk hdone⟩
  | check k multi hpc =>
    rw [hpc] at hp
    exact h.goto (h.numbered.placed_check h.early hp)
  | find k multi nextMXact nextOffset hpc =>
    rw [hpc] at hp
    obtain ⟨hr, hs⟩ := hp
    apply h.goto
    refine ⟨hr, hs, ?_⟩
    rw [hr.works.multi, h.numbered.multi k hr.works.live.1]
    exact h.entered.own k hr.works.live hr.recorded.own
  | measure k multi nextMXact nextOffset offset hpc =>
    rw [hpc] at hp
    obtain ⟨hr, hs, ho⟩ := hp
    rw [ho]
    exact h.goto (h.entered.placed_measure h.numbered hr hs)
  | slot k multi off left out hpc =>
    rw [hpc] at hp
    exact h.goto (h.filled.placed_scanSlot h.numbered hp)
  | scanned k multi off out hpc =>
    rw [hpc] at hp
    obtain ⟨hr, j, extra, hj, hle, hextra, hoff, hout⟩ := hp
    apply h.goto
    refine ⟨hr.works.live.1, ?_⟩
    rw [hout, take_of_length_le (by omega)]

omit [DecidableEq ι] in
/-- What others do keeps it. -/
theorem Inv.around (h : Inv s) (haround : Around s s') : Inv s' := by
  cases haround with
  | limits => exact { h with }
  | truncate index pos hindex hend hpos hposEnd hlive hunused =>
    have hn := h.numbered
    have hspan := hn.span
    have hback : ∀ k, (s.truncate index pos).history.Live k → s.history.Live k :=
      fun k hk => ⟨hk.1, hindex.trans hk.2⟩
    constructor
    case numbered =>
      have hspan' : s.history.first + s.history.count < index + 2 ^ 31 := by omega
      exact { hn with
        span := hspan'
        oldest := hend
        oldestId := rfl
        oldestPos := hposEnd
        room := fun hcount => (hn.room hcount).trans (Nat.add_le_add_right hpos _)
        livePos := fun k hk => hlive k hk.1 hk.2 }
    case early => exact h.early
    case entered => exact ⟨fun k hk => h.entered.own k (hback k hk), fun k hk => h.entered.next k (hback k hk)⟩
    case filled => exact ⟨fun k hk => h.filled.written k (hback k hk), fun k hk => h.filled.unused k (hback k hk)⟩
    case finished => exact h.finished
    case placed =>
      intro j
      apply (h.placed j).grows
      · exact ⟨Nat.le_refl _, fun _ _ => rfl, fun _ _ => ⟨id, id, Nat.le_refl _⟩⟩
      · exact fun k hk hlive => ⟨hlive.1, hunused j k hk⟩

omit [DecidableEq ι] in
theorem Initial.inv (h : Initial s) : Inv s := by
  have hfirst := h.first
  have hcount := h.count
  have hlive : ∀ k, ¬s.history.Live k := by grind [History.Live]
  constructor
  case numbered =>
    refine ⟨?span, ?oldest, h.oldestMultiXactId, ?nextId, ?nextOffset, h.oldestPos, ?_, ?_, ?_, ?_, ?_, ?_, ?_,
      ?_, ?_, ?_, ?_⟩
    case span =>
      rw [h.count]
      exact h.span
    case oldest =>
      rw [h.count]
      exact h.oldest
    case nextId =>
      rw [h.count, Nat.add_zero, idOf_eq_one_iff, ← UInt32.toNat_inj, ← UInt32.toNat_inj, idOf_toNat, hfirst]
      have hlt := s.shared.counters.nextMXact.toNat_lt
      show _ ∨ _ ∧ _ = 0
      omega
    case nextOffset =>
      apply UInt32.toNat_inj.mp
      rw [UInt32.toNat_ofNat', h.nextPos]
      have hlt := s.shared.counters.nextOffset.toNat_lt
      omega
    all_goals grind
  case entered => exact ⟨fun k hk => absurd hk (hlive k), fun k hk => absurd hk (hlive k)⟩
  case filled => exact ⟨fun k hk => absurd hk (hlive k), fun k hk => absurd hk (hlive k)⟩
  case placed =>
    intro i
    rw [h.pc i]
    trivial
  all_goals grind [Early, Finished]

theorem reachable_inv (h : Reachable Careful s) : Inv s := by
  induction h with
  | init h => exact h.inv
  | step h hmove hcond ih => exact ih.move hmove hcond
  | around h haround ih => exact ih.around haround

/-- A slot of a multixact. -/
def Rec.slot (r : Rec) (x : Nat) : MultiXactOffset := r.offset + UInt32.ofNat x

/-- The steps that a reader has before it at most. -/
def stepsLeft (h : History) : Pc → Nat
  | .read k _ => (h.log k).members.length + 5
  | .checked k _ _ _ => (h.log k).members.length + 4
  | .found k _ _ _ _ => (h.log k).members.length + 3
  | .scan _ _ _ left _ => left + 1
  | _ => 0

theorem Numbered.slot_ne_slot (hn : Numbered c h) (hj : h.Live j) (hk : h.Live k) (hne : j ≠ k)
    (hx : x < (h.log j).members.length) (hy : y < (h.log k).members.length) :
    (h.log j).slot x ≠ (h.log k).slot y := by
  have hapart := hn.slots_disjoint hj hk hx hy hne
  have hpos := hn.livePos j hj
  have hpos' := hn.livePos k hk
  have hend := hn.below j hj.1
  have hend' := hn.below k hk.1
  rw [Rec.finish] at hend hend'
  rw [Rec.slot, Rec.slot, hn.offset j hj.1, hn.offset k hk.1, ofNat_add_ofNat, ofNat_add_ofNat]
  apply hn.slot_ne _ _ _ _ (zero_lt_of_lt hj.1) hapart
  all_goals omega

/-- A reader goes on, and comes nearer to its answer. -/
theorem Inv.reader_goes_on (h : Inv s) (hreads : 0 < stepsLeft s.history (s.pc i)) :
    ∃ s', Move s i s' ∧ s'.pc i ≠ .idle ∧ stepsLeft s'.history (s'.pc i) < stepsLeft s.history (s.pc i) := by
  have hp := h.placed i
  generalize hpc : s.pc i = pc at hp hreads ⊢
  cases pc with
  | read k multi =>
    refine ⟨_, .check k multi hpc, ?_⟩
    have hplaced := h.numbered.placed_check h.early hp
    rw [State.goto_self]
    revert hplaced
    rw [checkMulti]
    split
    · exact False.elim
    · split
      · exact False.elim
      · exact fun _ => ⟨Pc.noConfusion, lt_succ_self _⟩
  | checked k multi nextMXact nextOffset =>
    refine ⟨_, .find k multi nextMXact nextOffset hpc, ?_⟩
    rw [State.goto_self]
    exact ⟨Pc.noConfusion, lt_succ_self _⟩
  | found k multi nextMXact nextOffset offset =>
    obtain ⟨hr, hs, ho⟩ := hp
    refine ⟨_, .measure k multi nextMXact nextOffset offset hpc, ?_⟩
    have hplaced := h.entered.placed_measure h.numbered hr hs
    rw [← ho] at hplaced
    rw [State.goto_self]
    have hleft : ∀ off left out, Placed s.history s.progress (.scan k multi off left out) →
        left + 1 < (s.history.log k).members.length + 3 := by
      intro off left out hscan
      obtain ⟨-, j, extra, hj, hle, -⟩ := hscan
      omega
    revert hplaced
    rw [measure]
    split
    · exact fun hscan => ⟨Pc.noConfusion, hleft _ _ _ hscan⟩
    · split
      · exact False.elim
      · exact fun hscan => ⟨Pc.noConfusion, hleft _ _ _ hscan⟩
  | scan k multi off left out =>
    cases left with
    | zero =>
      refine ⟨_, .scanned k multi off out hpc, ?_⟩
      rw [State.goto_self]
      exact ⟨Pc.noConfusion, lt_succ_self _⟩
    | succ left =>
      refine ⟨_, .slot k multi off left out hpc, ?_⟩
      have hplaced := h.filled.placed_scanSlot h.numbered hp
      rw [State.goto_self]
      revert hplaced
      rw [scanSlot]
      split
      · exact fun _ => ⟨Pc.noConfusion, lt_succ_self _⟩
      · split
        · exact False.elim
        · exact fun _ => ⟨Pc.noConfusion, lt_succ_self _⟩
  | _ => exact absurd hreads (Nat.lt_irrefl 0)

/-- Live multixacts have different ids and different slots, none begins at slot zero, and a reader of
one that has been returned gets its members. -/
theorem members_round_trip (h : Reachable Careful s) :
    (∀ j k, s.history.Live j → s.history.Live k → j ≠ k → (s.history.log j).multi ≠ (s.history.log k).multi ∧
        ∀ x < (s.history.log j).members.length, ∀ y < (s.history.log k).members.length,
          (s.history.log j).slot x ≠ (s.history.log k).slot y) ∧
      (∀ k < s.history.count, (s.history.log k).offset ≠ 0) ∧
      (∀ i k multi, s.pc i = .returned k multi → multi = (s.history.log k).multi) ∧
      (∀ i k multi out, s.pc i = .answered k multi out → out = (s.history.log k).members) ∧
      (∀ i k multi error, s.pc i ≠ .failed k multi error) ∧
      ∀ i, 0 < stepsLeft s.history (s.pc i) → ∃ s', Move s i s' ∧ s'.pc i ≠ .idle ∧
        stepsLeft s'.history (s'.pc i) < stepsLeft s.history (s.pc i) := by
  have hinv := reachable_inv h
  have hn := hinv.numbered
  have hspan := hn.span
  refine ⟨fun j k hj hk hne => ⟨?_, fun x hx y hy => hn.slot_ne_slot hj hk hne hx hy⟩, fun k hk => ?_,
    fun i k multi hpc => ?_, fun i k multi out hpc => ?_, fun i k multi error hpc => ?_,
    fun i => hinv.reader_goes_on⟩
  · rw [hn.multi j hj.1, hn.multi k hk.1]
    obtain ⟨hj1, hj2⟩ := hj
    obtain ⟨hk1, hk2⟩ := hk
    rcases Nat.lt_or_gt_of_ne hne with hlt | hlt
    · exact idOf_ne (by omega) (by omega)
    · exact (idOf_ne (by omega) (by omega)).symm
  · rw [hn.offset k hk, ne_eq, ofNat_eq_zero_iff]
    exact hn.start k hk
  · have hp := hinv.placed i
    rw [hpc] at hp
    exact hp.2.2
  · have hp := hinv.placed i
    rw [hpc] at hp
    exact hp.2
  · have hp := hinv.placed i
    rw [hpc] at hp
    exact hp

namespace Run

def member : MultiXactMember := ⟨5, .forShare⟩

theorem storedOrder_member : storedOrder [member] = [member] := mergeSort_singleton member

/-- The counters before any multixact. -/
def start (nextMXact vacLimit : MultiXactId) : State Bool where
  shared :=
    { counters := ⟨nextMXact, 1, nextMXact⟩
      limits := ⟨vacLimit, 0, false, false, 0⟩
      offsets := fun _ _ => 0
      members := fun _ _ => 0 }
  pc := fun _ => .idle
  history :=
    { count := 0
      log := fun _ => ⟨0, 0, [], 0⟩
      first := 2 ^ 32 - 1 + (nextMXact.toNat - 1)
      oldestIndex := 2 ^ 32 - 1 + (nextMXact.toNat - 1)
      nextPos := 2 ^ 32 + 1
      oldestPos := 2 ^ 32 + 1 }
  progress := fun _ => ⟨false, false, 0, false⟩

/-- A backend wants to store the member. -/
def wants (s : State Bool) (i : Bool) : State Bool := s.goto i (.create (storedOrder [member]))

def first (s : State Bool) (i : Bool) : State Bool := s.afterSection i [member] (getNewFirst s.shared 1)

def again (s : State Bool) (i : Bool) : State Bool := s.afterSection i [member] (getNewAgain s.shared 1)

section

variable {s : State Bool} {i : Bool}

theorem reach_wants (h : Reachable P s) (hpc : s.pc i = .idle) (hcond : P s i (wants s i)) :
    Reachable P (wants s i) := by
  apply h.step (.create [member] hpc _ _) hcond
  · intro m hm
    rw [mem_singleton.mp hm]
    rfl
  · decide

theorem reach_first (h : Reachable P (wants s i)) (hcond : P (wants s i) i (first (wants s i) i)) :
    Reachable P (first (wants s i) i) := by
  apply h.step (.first [member] _) hcond
  rw [wants, State.goto_self, storedOrder_member]

theorem reach_again (h : Reachable P s) (hpc : s.pc i = .warned [member] false)
    (hcond : P s i (again s i)) : Reachable P (again s i) :=
  h.step (.again [member] hpc) hcond

end

/-- Both backends meet the limit, then one allocates the last id and the other the first one. -/
def wrapped : State Bool :=
  again (again (first (wants (first (wants (start 0xFFFFFFFF 0xFFFFFFFE) true) true) false) false) true) false

/-- The other backend records it and reads it. -/
theorem first_id_lost : ∃ s : State Bool, Reachable (fun _ _ s' => Bounded s'.history) s ∧
      s.pc false = .failed 1 1 .notCreatedYet ∧ (s.history.log 1).multi = 1 ∧
        (s.progress 1).done = true ∧ s.history.Live 1 := by
  have hinit : Initial (start 0xFFFFFFFF 0xFFFFFFFE) :=
    ⟨fun _ => rfl, rfl, rfl, Nat.le_refl _, by decide, by decide, rfl, Nat.le_refl _⟩
  have hwrapped : Reachable (fun _ _ s' => Bounded s'.history) wrapped := by
    apply reach_again
    apply reach_again
    apply reach_first
    apply reach_wants
    apply reach_first
    apply reach_wants
    · exact .init hinit
    all_goals first | rfl | decide
  have hown := hwrapped.step (i := false) (.ownSame 1 1 2 [member] rfl rfl) (by decide)
  have hwrite := hown.step (i := false) (.write 1 1 2 member [] rfl) (by decide)
  have hwrote := hwrite.step (i := false) (.wrote 1 1 3 rfl) (by decide)
  have hidle := hwrote.step (i := false) (.leave fun _ _ _ _ _ => by
    exact ⟨Pc.noConfusion, Pc.noConfusion, Pc.noConfusion, Pc.noConfusion⟩) (by decide)
  have hread := hidle.step (i := false) (.read 1 rfl (by decide) rfl (by decide)) (by decide)
  have hcheck := hread.step (i := false) (.check 1 1 rfl) (by decide)
  exact ⟨_, hcheck, rfl, rfl, rfl, by decide, by decide⟩

/-- Away from the wrap-around every step is careful. -/
theorem quiet {s s' : State Bool} (h : Reachable Careful s) (hmove : Move s true s')
    (hfits : Fits s'.history := by constructor <;> decide)
    (hnew : ∀ members, s'.pc true ≠ .create members := by exact fun _ => Pc.noConfusion)
    (hne : s.shared.counters.nextMXact ≠ 0 := by decide) : Reachable Careful s' :=
  h.step hmove ⟨hfits.1, hfits.2, fun _ hpc => absurd hpc (hnew _), fun _ _ => hne, fun _ _ h0 => absurd h0 hne⟩

/-- A backend stores the member and reads it back. -/
theorem members_round_trip_stored : ∃ s : State Bool, s.pc true = .answered 0 5 [member] ∧ s.history.Live 0 ∧
      (s.history.log 0).members = [member] ∧ ∀ i k multi error, s.pc i ≠ .failed k multi error := by
  have hinit : Initial (start 5 100) :=
    ⟨fun _ => rfl, rfl, rfl, Nat.le_refl _, by decide, by decide, rfl, Nat.le_refl _⟩
  have hwants : Reachable Careful (wants (start 5 100) true) := by
    apply reach_wants (.init hinit) rfl
    refine ⟨by decide, by decide, fun members hpc => ?_, fun _ hpc => Pc.noConfusion hpc,
      fun _ hpc => Pc.noConfusion hpc⟩
    rw [wants, storedOrder_member] at hpc
    cases hpc
    decide
  have hpc : (wants (start 5 100) true).pc true = .create [member] := by
    rw [wants, State.goto_self, storedOrder_member]
  have hstored := quiet hwants (.first [member] hpc)
  have hown := quiet hstored (.ownSame 0 5 1 [member] rfl rfl)
  have hwrite := quiet hown (.write 0 5 1 member [] rfl)
  have hwrote := quiet hwrite (.wrote 0 5 2 rfl)
  have hidle := quiet hwrote (.leave fun _ _ _ _ _ => by
      exact ⟨Pc.noConfusion, Pc.noConfusion, Pc.noConfusion, Pc.noConfusion⟩)
  have hread := quiet hidle (.read 0 rfl (by decide) rfl (by decide))
  have hcheck := quiet hread (.check 0 5 rfl)
  have hfind := quiet hcheck (.find 0 5 6 2 rfl)
  have hmeasure := quiet hfind (.measure 0 5 6 2 1 rfl)
  have hslot := quiet hmeasure (.slot 0 5 1 0 [] rfl)
  have hscanned := quiet hslot (.scanned 0 5 2 [member] rfl)
  obtain ⟨-, -, -, -, hnofail, -⟩ := members_round_trip hscanned
  exact ⟨_, rfl, ⟨by decide, by decide⟩, rfl, hnofail⟩

end Run

end MultiXact
