import Pgrust.ColumnarParallel

/-!
# A column on the serial and on the parallel path

One column is followed through the rows of a group: the serial tracker, which goes on
from the rows before, against the tracker of a fresh encoder. Committing what the
encoder has seen brings the leader's column in step with the serial one.
-/
namespace ColumnarParallelColumns

open ByteImage ColumnarFormat ColumnarAppend ColumnarSealing ColumnarFooter ColumnarStitch ColumnarHll List Option
open ColumnarWriter ColumnarParallel ColumnarChunkView

/-- Two runs end alike: with related results, or both without one. -/
def Agree {α β : Type} (R : α → β → Prop) : Run α → Run β → Prop
  | .ok a, .ok b => R a b
  | .error _, .error _ => True
  | _, _ => False

theorem Agree.bind {α β γ δ : Type} {R : α → β → Prop} {S : γ → δ → Prop} {x : Run α} {y : Run β}
    {f : α → Run γ} {g : β → Run δ} (h : Agree R x y) (hfg : ∀ a b, R a b → Agree S (f a) (g b)) :
    Agree S (x >>= f) (y >>= g) := by
  cases x with
  | ok a =>
    cases y with
    | ok b => exact hfg a b h
    | error => exact h.elim
  | error =>
    cases y with
    | ok => exact h.elim
    | error => exact trivial

theorem agree_refl {α : Type} (x : Run α) : Agree Eq x x := by cases x <;> simp [Agree]

section Column

def builderIsText : ColBuilder → Bool
  | .text _ => true
  | .int _ => false

/-- The previous values that matter to a column agree. -/
def SamePrev (t : ColType) (s e : ColState) : Prop :=
  if t.isText then s.prevText = e.prevText else s.prevInt = e.prevInt

def mergeNdv : Option Hll → Option Hll → Option Hll
  | some n, some h => some (n.merge h)
  | _, _ => none

def joinSorted (broken : Bool) : Option Bool → Option Bool → Option Bool
  | some b, some be => some (b && be && !broken)
  | _, _ => none

/-- A serial column `s` that started the chunk as `s₀`, and the column `e` of an
encoder that started afresh, after the same rows. -/
structure Follows (hasPrev : Bool) (t : ColType) (s₀ : ColState) (first : I64 × List UInt8)
    (s e : ColState) : Prop where
  builder : s.builder = e.builder
  kind : builderIsText e.builder = t.isText
  ndv : s.ndv = mergeNdv s₀.ndv e.ndv
  ndvKept : s₀.ndv.isSome = e.ndv.isSome
  sorted : s.sorted = joinSorted (hasPrev && seamBroken t first s₀) s₀.sorted e.sorted
  sortedKept : s₀.sorted.isSome = e.sorted.isSome
  prev : s.sorted = some true → SamePrev t s e

/-- How a column starts a chunk. -/
structure Starts (plan : ParallelIngestPlan) (t : ColType) (s : ColState) : Prop where
  builder : s.builder = .fresh t
  ndv : s.ndv.isSome = plan.wantNdv
  sorted : s.sorted.isSome = plan.wantSorted

theorem map_addHash_first (n : Option Hll) (h : BitVec 64) :
    n.map (·.addHash h) = mergeNdv n (if n.isSome then some (Hll.empty.addHash h) else none) := by
  cases n with
  | none => rfl
  | some =>
    simp only [map_some, isSome_some, if_true, mergeNdv]
    rw [addHash_eq_merge, addHash_eq_merge Hll.empty, empty_merge]

theorem map_addHash_mergeNdv (n m : Option Hll) (h : BitVec 64) :
    (mergeNdv n m).map (·.addHash h) = mergeNdv n (m.map (·.addHash h)) := by
  cases n with
  | none => rfl
  | some =>
    cases m with
    | none => rfl
    | some m =>
      simp only [mergeNdv, map_some]
      rw [addHash_eq_merge, addHash_eq_merge m, merge_assoc]

/-- The order flag of both columns after one more value. -/
theorem joinSorted_step {broken lt lt' : Bool} {b be : Option Bool}
    (h : joinSorted broken b be = some true → lt = lt') :
    (joinSorted broken b be).map (fun s => s && !lt) = joinSorted broken b (be.map (fun s => s && !lt')) := by
  cases b with
  | none => rfl
  | some b =>
    cases be with
    | none => rfl
    | some be => cases b <;> cases be <;> cases broken <;> simp_all [joinSorted]

variable {hashBytes : List UInt8 → BitVec 64} {plan : ParallelIngestPlan} {hasPrev : Bool} {t : ColType}
  {s₀ s e : ColState} {first : I64 × List UInt8}

theorem follows_first_int (h : Starts plan t s₀) (ht : t.isText = false) (v : I64) :
    Follows hasPrev t s₀ (((encoderCol plan t).addInt [] false v).prevInt, [])
      (s₀.addInt [] hasPrev v) ((encoderCol plan t).addInt [] false v) := by
  obtain ⟨hb, hn, hs⟩ := h
  constructor
  · rfl
  · exact ht.symm
  · have := map_addHash_first s₀.ndv (ColumnarSketch.mix64 v)
    rw [hn] at this
    cases hw : plan.wantNdv <;> rw [hw] at this <;>
      simpa [ColState.addInt, encoderCol, hw, Hll.addI64] using this
  · cases hw : plan.wantNdv <;> rw [hw] at hn <;> simp [ColState.addInt, encoderCol, hw, hn]
  · cases hso : s₀.sorted <;> rw [hso] at hs <;>
      simp [ColState.addInt, encoderCol, ← hs, hso, joinSorted, seamBroken, ht]
  · cases hso : s₀.sorted <;> rw [hso] at hs <;> simp [ColState.addInt, encoderCol, ← hs]
  · intro hsorted
    cases hso : s₀.sorted <;> rw [hso] at hs <;>
      simp [ColState.addInt, encoderCol, ← hs, hso, SamePrev, ht] at hsorted ⊢

theorem follows_first_text (h : Starts plan t s₀) (ht : t.isText = true) (b : List UInt8) :
    Follows hasPrev t s₀ (0, ((encoderCol plan t).addText hashBytes .empty false b).prevText)
      (s₀.addText hashBytes .empty hasPrev b) ((encoderCol plan t).addText hashBytes .empty false b) := by
  obtain ⟨hb, hn, hs⟩ := h
  constructor
  · rfl
  · exact ht.symm
  · have := map_addHash_first s₀.ndv (hashBytes b)
    rw [hn] at this
    cases hw : plan.wantNdv <;> rw [hw] at this <;>
      simpa [ColState.addText, encoderCol, hw, Hll.addBytes] using this
  · cases hw : plan.wantNdv <;> rw [hw] at hn <;> simp [ColState.addText, encoderCol, hw, hn]
  · cases hso : s₀.sorted <;> rw [hso] at hs <;>
      simp [ColState.addText, encoderCol, ← hs, hso, joinSorted, seamBroken, ht]
  · cases hso : s₀.sorted <;> rw [hso] at hs <;> simp [ColState.addText, encoderCol, ← hs]
  · intro hsorted
    cases hso : s₀.sorted with
    | none => simp [ColState.addText, hso] at hsorted
    | some =>
      simp only [ColState.addText, hso, map_some, Option.some.injEq, Bool.and_eq_true,
        Bool.not_eq_true', Bool.and_eq_false_iff, decide_eq_false_iff_not] at hsorted
      have hkeep : ¬ (hasPrev = true ∧ b < s₀.prevText) := by
        rintro ⟨hp, hlt⟩
        cases hsorted.2 with
        | inl h => simp [hp] at h
        | inr h => exact h hlt
      simp [SamePrev, ht, ColState.addText, encoderCol, ← hs, hso, hsorted.1, hkeep]

/-- The first row of a chunk. -/
theorem follows_first (h : Starts plan t s₀) (v : Datum) (isnull : Bool) :
    Agree (fun s e => Follows hasPrev t s₀ (e.prevInt, e.prevText) s e)
      (appendColumn hashBytes t hasPrev s₀ v isnull)
      (appendColumn hashBytes t false (encoderCol plan t) v isnull) := by
  have hbe : (encoderCol plan t).builder = .fresh t := rfl
  cases isnull with
  | true => simp [appendColumn, Agree]
  | false =>
    cases ht : t.isText with
    | true =>
      simp only [appendColumn, h.builder, hbe, ColBuilder.fresh, ht]
      apply (agree_refl (varlenaBytes v)).bind
      rintro b _ rfl
      exact follows_first_text h ht b
    | false =>
      simp only [appendColumn, h.builder, hbe, ColBuilder.fresh, ht]
      apply (agree_refl (intValue t v)).bind
      rintro x _ rfl
      exact follows_first_int h ht x

section

variable (h : Follows hasPrev t s₀ first s e)
include h

theorem Follows.addInt (ht : t.isText = false) (vals : List I64)
    (v : I64) : Follows hasPrev t s₀ first (s.addInt vals true v) (e.addInt vals true v) := by
  obtain ⟨hb, hk, hn, hnk, hs, hsk, hp⟩ := h
  simp only [SamePrev, ht] at hp
  constructor
  · rfl
  · exact ht.symm
  · have := map_addHash_mergeNdv s₀.ndv e.ndv (ColumnarSketch.mix64 v)
    rwa [← hn] at this
  · simpa [ColState.addInt] using hnk
  · have := @joinSorted_step (hasPrev && seamBroken t first s₀) (true && v.slt s.prevInt)
      (true && v.slt e.prevInt) s₀.sorted e.sorted (fun hj => by rw [hp (hs.trans hj)])
    rwa [← hs] at this
  · simpa [ColState.addInt] using hsk
  · intro hsorted
    have hsome : s.sorted.isSome := by
      cases hs' : s.sorted <;> simp [ColState.addInt, hs'] at hsorted ⊢
    have hesome : e.sorted.isSome := by
      rw [← hsk]
      cases h₀ : s₀.sorted with
      | none => simp [hs, h₀, joinSorted] at hsome
      | some => rfl
    simp [SamePrev, ht, ColState.addInt, hsome, hesome]

theorem Follows.addText (ht : t.isText = true) (tb : TextBuilder) (b : List UInt8) :
    Follows hasPrev t s₀ first (s.addText hashBytes tb true b) (e.addText hashBytes tb true b) := by
  obtain ⟨hb, hk, hn, hnk, hs, hsk, hp⟩ := h
  simp only [SamePrev, ht, if_true] at hp
  constructor
  · rfl
  · exact ht.symm
  · have := map_addHash_mergeNdv s₀.ndv e.ndv (hashBytes b)
    rwa [← hn] at this
  · simpa [ColState.addText] using hnk
  · have := @joinSorted_step (hasPrev && seamBroken t first s₀) (true && decide (b < s.prevText))
      (true && decide (b < e.prevText)) s₀.sorted e.sorted (fun hj => by rw [hp (hs.trans hj)])
    rwa [← hs] at this
  · simpa [ColState.addText] using hsk
  · intro hsorted
    -- the serial flag is still set, so it was set before and so was the encoder's
    obtain ⟨so, hso, hkeep⟩ := map_eq_some_iff.mp hsorted
    simp only [Bool.and_eq_true] at hkeep
    obtain ⟨rfl, hle⟩ := hkeep
    have he : e.sorted = some true := by
      cases h₀ : s₀.sorted <;> cases he : e.sorted <;> simp_all [joinSorted]
    have hprev := hp hso
    simp [SamePrev, ht, ColState.addText, hso, he, hprev]

/-- One more row of a chunk. -/
theorem Follows.next (v : Datum) (isnull : Bool) :
    Agree (Follows hasPrev t s₀ first) (appendColumn hashBytes t true s v isnull)
      (appendColumn hashBytes t true e v isnull) := by
  cases isnull with
  | true => simp [appendColumn, Agree]
  | false =>
    simp only [appendColumn, h.builder]
    have hkind := h.kind
    cases hb : e.builder with
    | text tb =>
      rw [hb] at hkind
      apply (agree_refl (varlenaBytes v)).bind
      rintro b _ rfl
      exact h.addText hkind.symm tb b
    | int vals =>
      rw [hb] at hkind
      apply (agree_refl (intValue t v)).bind
      rintro x _ rfl
      exact h.addInt hkind.symm vals x

end

/-- The serial and the committing writer's column between two groups. -/
structure Track (plan : ParallelIngestPlan) (t : ColType) (s p : ColState) : Prop where
  starts : Starts plan t s
  builder : p.builder = .fresh t
  ndv : p.ndv = s.ndv
  sorted : p.sorted = s.sorted
  prev : s.sorted = some true → SamePrev t s p

theorem mergeNdv_isSome (h : n.isSome = m.isSome) : (mergeNdv n m).isSome = n.isSome := by
  cases n <;> cases m <;> simp_all [mergeNdv]

theorem joinSorted_isSome (h : b.isSome = be.isSome) : (joinSorted broken b be).isSome = b.isSome := by
  cases b <;> cases be <;> simp_all [joinSorted]

def resetBuilder (t : ColType) (col : ColState) : ColState := { col with builder := .fresh t }

theorem Follows.starts (h : Follows hasPrev t s₀ first s e) (h₀ : Starts plan t s₀) :
    Starts plan t (resetBuilder t s) where
  builder := rfl
  ndv := by
    rw [resetBuilder, h.ndv, mergeNdv_isSome h.ndvKept, h₀.ndv]
  sorted := by
    rw [resetBuilder, h.sorted, joinSorted_isSome h.sortedKept, h₀.sorted]

theorem commitNdv_eq (h : n.isSome = m.isSome) : commitNdv n m = .ok (mergeNdv n m) := by
  cases n <;> cases m <;> simp_all [commitNdv, mergeNdv]

theorem SamePrev.seamBroken (h : SamePrev t s p) : seamBroken t first p = seamBroken t first s := by
  simp only [SamePrev] at h
  simp only [ColumnarParallel.seamBroken]
  split_ifs at h ⊢ <;> rw [h]

/-- The order tracker of a committed chunk. -/
theorem Follows.commitOrder {q : ColState} (h : Follows hasPrev t s₀ first s e)
    (hsorted : q.sorted = s₀.sorted) (hprev : s₀.sorted = some true → SamePrev t s₀ q) :
    ∃ p', commitOrder hasPrev t q (probeOf e first) = .ok p' ∧ p'.builder = q.builder ∧
      p'.ndv = q.ndv ∧ p'.sorted = s.sorted ∧ (s.sorted = some true → SamePrev t s p') := by
  obtain ⟨-, -, -, -, hs, hsk, hp⟩ := h
  simp only [ColumnarParallel.commitOrder, probeOf, hsorted]
  cases hso : s₀.sorted with
  | none =>
    have hs' : s.sorted = none := by rw [hs, hso]; rfl
    exact ⟨q, rfl, rfl, rfl, by rw [hsorted, hso, hs'], fun h => by rw [hs'] at h; cases h⟩
  | some so =>
    cases he : e.sorted with
    | none => simp [hso, he] at hsk
    | some se =>
      rw [hso, he, joinSorted] at hs
      cases so with
      | false =>
        have hs' : s.sorted = some false := by simpa using hs
        exact ⟨q, rfl, rfl, rfl, by rw [hsorted, hso, hs'], fun h => by rw [hs'] at h; cases h⟩
      | true =>
        simp only [map_some, (hprev hso).seamBroken]
        have hs' : s.sorted = some (!(!se || (hasPrev && seamBroken t first s₀))) := by
          rw [hs]
          cases se <;> simp
        cases hbroken : (!se || (hasPrev && seamBroken t first s₀)) with
        | true =>
          rw [hbroken] at hs'
          exact ⟨_, rfl, rfl, rfl, hs'.symm, fun h => by rw [hs'] at h; cases h⟩
        | false =>
          rw [hbroken] at hs'
          have hlast := hp hs'
          simp only [SamePrev] at hlast ⊢
          cases ht : t.isText with
          | true | false =>
            rw [ht] at hlast
            exact ⟨_, rfl, rfl, rfl, by rw [hs']; rfl, fun _ => hlast⟩

/-- The commit of a followed column keeps it in step. -/
theorem Follows.commit (h : Follows hasPrev t s₀ first s e) (htr : Track plan t s₀ p) :
    ∃ p', commitCol hasPrev t p e.ndv (probeOf e first) = .ok p' ∧ Track plan t (resetBuilder t s) p' := by
  have hq := @Follows.commitOrder hasPrev t s₀ s e first { p with ndv := mergeNdv s₀.ndv e.ndv } h
    htr.sorted htr.prev
  obtain ⟨p', hp', hb, hn, hs, hprev⟩ := hq
  refine ⟨p', ?_, h.starts htr.starts, hb.trans htr.builder, hn.trans h.ndv.symm, hs, hprev⟩
  rw [commitCol, htr.ndv, commitNdv_eq h.ndvKept]
  exact hp'

end Column

section Columns

variable {hashBytes : List UInt8 → BitVec 64} {plan : ParallelIngestPlan} {hasPrev : Bool}
  {ts : List ColType} {s₀s ss es ps : List ColState} {fs : List (I64 × List UInt8)}

inductive FollowAll (hasPrev : Bool) : List ColType → List ColState → List (I64 × List UInt8) →
    List ColState → List ColState → Prop
  | nil : FollowAll hasPrev [] [] [] [] []
  | cons {t s₀ f s e ts s₀s fs ss es} : Follows hasPrev t s₀ f s e → FollowAll hasPrev ts s₀s fs ss es →
      FollowAll hasPrev (t :: ts) (s₀ :: s₀s) (f :: fs) (s :: ss) (e :: es)

inductive TrackAll (plan : ParallelIngestPlan) : List ColType → List ColState → List ColState → Prop
  | nil : TrackAll plan [] [] []
  | cons {t s p ts ss ps} : Track plan t s p → TrackAll plan ts ss ps → TrackAll plan (t :: ts) (s :: ss) (p :: ps)

/-- The values the encoder copies as the first of its chunk. -/
def prevValues (cols : List ColState) : List (I64 × List UInt8) := cols.map (fun col => (col.prevInt, col.prevText))

theorem TrackAll.firstRow (h : TrackAll plan ts ss ps) (vs : List Datum) (ns : List Bool) :
    Agree (fun cols es => FollowAll hasPrev ts ss (prevValues es) cols es)
      (appendRowInto hashBytes hasPrev ts ss vs ns)
      (appendRowInto hashBytes false ts (ts.map (encoderCol plan)) vs ns) := by
  induction h generalizing vs ns with
  | nil => exact FollowAll.nil
  | cons htr _ ih =>
    cases vs with
    | nil => exact trivial
    | cons v vs =>
      cases ns with
      | nil => exact trivial
      | cons n ns =>
        apply (follows_first htr.starts v n).bind
        intro s e hfollow
        apply (ih vs ns).bind
        intro cols es hall
        exact FollowAll.cons hfollow hall

theorem FollowAll.nextRow (h : FollowAll hasPrev ts s₀s fs ss es) (vs : List Datum) (ns : List Bool) :
    Agree (FollowAll hasPrev ts s₀s fs) (appendRowInto hashBytes true ts ss vs ns)
      (appendRowInto hashBytes true ts es vs ns) := by
  induction h generalizing vs ns with
  | nil => exact FollowAll.nil
  | cons hfollow _ ih =>
    cases vs with
    | nil => exact trivial
    | cons v vs =>
      cases ns with
      | nil => exact trivial
      | cons n ns =>
        apply (hfollow.next v n).bind
        intro s e hnext
        apply (ih vs ns).bind
        intro cols es hall
        exact FollowAll.cons hnext hall

variable (hashBytes) in
section

variable (h : FollowAll hasPrev ts s₀s fs ss es)
include h

theorem FollowAll.nextRows (rows : List Row) :
    Agree (FollowAll hasPrev ts s₀s fs) (appendRows hashBytes ts true ss rows)
      (appendRows hashBytes ts true es rows) := by
  induction rows generalizing ss es with
  | nil => exact h
  | cons r rows ih =>
    apply (h.nextRow r.values r.isnull).bind
    intro ss es hnext
    exact ih hnext

/-- The commit of a followed group keeps the columns in step. -/
theorem FollowAll.commit (htr : TrackAll plan ts s₀s ps) :
    ∃ ps', commitCols hasPrev ts ps (List.zipWith (fun col first => (col.ndv, probeOf col first)) es fs) =
        .ok ps' ∧ TrackAll plan ts (List.zipWith resetBuilder ts ss) ps' := by
  induction h generalizing ps with
  | nil =>
    cases htr
    exact ⟨[], rfl, .nil⟩
  | cons hfollow _ ih =>
    cases htr with
    | cons htr₁ htr =>
      obtain ⟨p', hp', htrack⟩ := hfollow.commit htr₁
      obtain ⟨ps', hps', hall⟩ := ih htr
      refine ⟨p' :: ps', ?_, .cons htrack hall⟩
      simp [commitCols, hp', hps']

theorem FollowAll.builders : ss.map ColState.builder = es.map ColState.builder := by
  induction h with
  | nil => rfl
  | cons hfollow _ ih => rw [map_cons, map_cons, hfollow.builder, ih]

end

theorem TrackAll.ndv (h : TrackAll plan ts ss ps) : ps.map ColState.ndv = ss.map ColState.ndv := by
  induction h with
  | nil => rfl
  | cons htr _ ih => rw [map_cons, map_cons, htr.ndv, ih]

theorem TrackAll.sorted (h : TrackAll plan ts ss ps) : ps.map ColState.sorted = ss.map ColState.sorted := by
  induction h with
  | nil => rfl
  | cons htr _ ih => rw [map_cons, map_cons, htr.sorted, ih]

end Columns

section Encoder

variable {plan : ParallelIngestPlan}

theorem encoder_rows (e : RgChunkEncoder) (he : e.hasPrev = true) (rows : List Row) :
    rows.foldlM (RgChunkEncoder.appendRow host plan) e = (do
      let cols ← appendRows host.hashBytes plan.coltypes true e.cols rows
      .ok { e with cols := cols, nbuf := e.nbuf + rows.length }) := by
  induction rows generalizing e with
  | nil => rfl
  | cons r rows ih =>
    simp only [foldlM_cons, RgChunkEncoder.appendRow, appendRows, he, if_true]
    cases appendRowInto host.hashBytes true plan.coltypes e.cols r.values r.isnull with
    | error => rfl
    | ok =>
      simp only [run_ok_bind]
      rw [ih _ rfl]
      simp [Nat.add_assoc, Nat.add_comm 1]

/-- The rows of a group through a fresh encoder. -/
theorem encodeRg_cons (r : Row) (rows : List Row) : encodeRg host plan (r :: rows) = (do
      let first ← appendRowInto host.hashBytes false plan.coltypes
        (plan.coltypes.map (encoderCol plan)) r.values r.isnull
      let cols ← appendRows host.hashBytes plan.coltypes true first rows
      RgChunkEncoder.seal host plan ⟨cols, rows.length + 1, prevValues first, true⟩) := by
  simp only [encodeRg, foldlM_cons, RgChunkEncoder.appendRow, RgChunkEncoder.new]
  cases appendRowInto host.hashBytes false plan.coltypes (plan.coltypes.map (encoderCol plan)) r.values
      r.isnull with
  | error err => rfl
  | ok first =>
    simp only [run_ok_bind]
    rw [encoder_rows _ rfl]
    cases appendRows host.hashBytes plan.coltypes true first rows with
    | error => rfl
    | ok =>
      simp only [Nat.add_comm 1]
      rfl

end Encoder

end ColumnarParallelColumns
