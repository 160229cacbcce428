import Pgrust.WalInsertion

/-!
Waiting for insertions to finish. Each record's progress is published on one insertion lock, and never
ahead of the copying. A waiting thread looks at the locks one after another; what it has seen of the
records reserved when it started stays true, since copying only advances, and the records reserved
later lie behind the position it returns.
-/

namespace WalInsertionWait

open XLogAssemble WalPositions WalInsertion List
open Function (update_of_ne update_self)

variable {ι κ : Type} {seg : WalSegSize} {init s s' : State ι κ} {t : ι} {b : Backend} {effect : Effect ι}
  {pc : Pc} {a base cap : Nat} {w : Waiter}

/-- A record being copied: the locks held, its place in the log, its end, and the position reached. -/
structure Job where
  hold : Hold
  k : Nat
  stop : Nat
  pos : Nat

def job : Pc → Option Job
  | .copy h k stop pos _ => some ⟨h, k, stop, pos⟩
  | .storeRedo k start stop => some ⟨.all, k, stop, start⟩
  | _ => none

/-- Up to where `insertingAt` of a lock may be while its holder is at a place; on some locks it carries
no progress. -/
def varBound : Pc → LockNo → Option Nat
  | .loadRedo _ _, _ => some 0
  | .loadWrites _ _, _ => some 0
  | .loadBackups _ _ _, _ => some 0
  | .check _ _, _ => some 0
  | .reserve _ _, _ => some 0
  | .critical _, l => if l = 7 then some 0 else none
  | .storeRedo _ start _, l => if l = 7 then some start else none
  | .copy (.one _) _ _ pos _, _ => some pos
  | .copy .all _ _ pos _, l => if l = 7 then some pos else none
  | .release _ j true _, l => if l = j then some 0 else none
  | _, _ => none

variable {j : Job} {l : LockNo} {p v k curr n finished : Nat} {looked : LockNo → Prop}

theorem job_holds (h : job pc = some j) : pc.holds j.hold.progress = true := by
  cases pc with
  | copy hold =>
    cases h
    cases hold with
    | one => exact decide_eq_true rfl
    | all => rfl
  | storeRedo => rfl
  | _ => cases h

theorem job_bound (h : job pc = some j) : varBound pc j.hold.progress = some j.pos := by
  cases pc with
  | copy hold =>
    cases h
    cases hold <;> rfl
  | storeRedo =>
    cases h
    rfl
  | _ => cases h

/-- While a record is copied, the bound is on the lock with its progress, and is what has been copied. -/
theorem copy_bound (hheld : (Pc.copy hold k stop pos c).holds l = true)
    (hbound : varBound (.copy hold k stop pos c) l = some p) : l = hold.progress ∧ p = pos := by
  cases hold with
  | one => exact ⟨of_decide_eq_true hheld, (Option.some.inj hbound).symm⟩
  | all =>
    simp only [varBound] at hbound
    split_ifs at hbound with hl
    exact ⟨hl, (Option.some.inj hbound).symm⟩

theorem initializedUpto_le (seg) (ptr : Nat) : initializedUpto seg ptr ≤ ptr := by
  rw [initializedUpto]
  split_ifs <;> omega

/-- Under a bound after a step the lock's value was set to obey it, or the lock has just been acquired,
or there was a bound before. -/
theorem Move.bound (h : Move seg s t b effect b') (hheld : b'.pc.holds l = true)
    (hbound : varBound b'.pc l = some p) :
    (∃ v, effect = .setVar l v ∧ v ≤ p) ∨ effect = .acquire l ∨
      ((∀ i v, effect = .setVar i v → i ≠ l) ∧ b.pc.holds l = true ∧ ∃ q, varBound b.pc l = some q ∧ q ≤ p) := by
  have hsilent : ∀ {e : Effect ι}, (∀ i v, e ≠ .setVar i v) → ∀ i v, e = .setVar i v → i ≠ l :=
    fun hne i v heq => absurd heq (hne i v)
  cases h with
  | acquire =>
    right; left
    rw [of_decide_eq_true hheld]
  | loadRedo | loadWrites | loadBackups | fresh | reserve =>
    exact .inr (.inr ⟨hsilent (by simp), hheld, 0, rfl, Nat.zero_le _⟩)
  | lockLast =>
    simp only [varBound] at hbound
    split_ifs at hbound with hl
    rw [hl]
    exact .inr (.inl rfl)
  | switch | checkpoint =>
    simp only [varBound] at hbound
    split_ifs at hbound with hl
    exact .inr (.inr ⟨hsilent (by simp), rfl, 0, if_pos hl, Nat.zero_le _⟩)
  | storeRedo => exact .inr (.inr ⟨hsilent (by simp), rfl, p, hbound, le_rfl⟩)
  | publish r w hold k stop pos =>
    obtain ⟨rfl, rfl⟩ := copy_bound hheld hbound
    exact .inl ⟨_, rfl, initializedUpto_le seg p⟩
  | cached r w hold k stop =>
    obtain ⟨rfl, rfl⟩ := copy_bound hheld hbound
    have hjob : job (.copy hold k stop p false) = some ⟨hold, k, stop, p⟩ := rfl
    exact .inr (.inr ⟨hsilent (by simp), job_holds hjob, p, job_bound hjob, le_rfl⟩)
  | fill r w hold k stop pos pos' hlow =>
    obtain ⟨rfl, rfl⟩ := copy_bound hheld hbound
    have hjob : job (.copy hold k stop pos true) = some ⟨hold, k, stop, pos⟩ := rfl
    exact .inr (.inr ⟨hsilent (by simp), job_holds hjob, pos, job_bound hjob, hlow⟩)
  | clear =>
    left
    simp only [varBound] at hbound
    split_ifs at hbound with hl
    rw [hl]
    exact ⟨0, rfl, Nat.zero_le _⟩
  | freeOne | freeLast =>
    rw [back_holds] at hheld
    cases hheld
  | _ => cases hbound

theorem Move.freed (h : Move seg s t b (.free i) b') : varBound b.pc i = some 0 := by
  cases h with
  | freeOne | freeNext => exact if_pos rfl
  | freeLast => rfl

theorem Move.sets (h : Move seg s t b (.setVar i v) b') : b.pc.holds i = true := by
  cases h with
  | markAll => exact decide_eq_true (Fin.le_refl _)
  | publish r w hold =>
    cases hold with
    | one => exact decide_eq_true rfl
    | all => rfl
  | clear r w hold =>
    cases hold with
    | one => exact decide_eq_true rfl
    | all => exact decide_eq_true (Fin.le_refl _)

/-- The value on a lock changes only by a step that stores it. -/
theorem act_insertingAt (s : State ι κ) (t : ι) (h : ∀ i v, effect = .setVar i v → i ≠ l) : (s.act t effect).insertingAt l = s.insertingAt l := by
  cases effect with
  | setVar i v => exact update_of_ne (h i v rfl).symm ..
  | change c => cases c <;> rfl
  | _ => rfl

/-- Progress values: none on a free lock, none ahead of the copying on a held one. -/
structure Vars (s : State ι κ) : Prop where
  free : ∀ l, s.holder l = none → s.insertingAt l = 0
  bound : ∀ t l p, (s.pc t).holds l = true → varBound (s.pc t) l = some p → s.insertingAt l ≤ p

theorem Vars.free_backend (h : Vars s) (hlocks : s.LocksAgree)
    (hmove : Move seg s t (s.backend t) effect b) (hfree : (s.act t effect).holder l = none) : (s.act t effect).insertingAt l = 0 := by
  cases effect with
  | acquire i =>
    obtain rfl | hl := eq_or_ne l i
    · rw [acquire_holder, update_self] at hfree
      cases hfree
    · rw [acquire_holder, update_of_ne hl] at hfree
      exact h.free l hfree
  | free i =>
    obtain rfl | hl := eq_or_ne l i
    · exact Nat.le_zero.mp (h.bound t l 0 hmove.holds.1 (Move.freed hmove))
    · rw [free_holder, update_of_ne hl] at hfree
      exact h.free l hfree
  | setVar i =>
    have hne : i ≠ l := by
      rintro rfl
      have hheld := (hlocks i t).mpr (Move.sets hmove)
      rw [show s.holder i = none from hfree] at hheld
      cases hheld
    rw [setVar_insertingAt, update_of_ne hne.symm]
    exact h.free l hfree
  | change c =>
    rw [State.act, set_holder] at hfree
    rw [← h.free l hfree]
    cases c <;> rfl
  | _ => exact h.free l hfree

theorem Vars.bound_backend [DecidableEq ι] (h : Vars s) (hlocks : s.LocksAgree)
    (hmove : Move seg s t (s.backend t) effect b) (hheld : (((s.act t effect).put t b).pc u).holds l = true)
    (hbound : varBound (((s.act t effect).put t b).pc u) l = some p) :
    (s.act t effect).insertingAt l ≤ p := by
  obtain rfl | hu := eq_or_ne u t
  · rw [State.pc, after_self] at hheld hbound
    rcases Move.bound hmove hheld hbound with ⟨v, rfl, hv⟩ | rfl | ⟨hkeep, hbefore, q, hq, hle⟩
    · rw [setVar_insertingAt, update_self]
      exact hv
    · rw [show (s.act u (.acquire l)).insertingAt = s.insertingAt from rfl, h.free l hmove.acquires]
      exact Nat.zero_le p
    · rw [act_insertingAt s u hkeep]
      exact (h.bound u l q hbefore hq).trans hle
  · rw [State.pc, after_other s effect b hu] at hheld hbound
    rw [act_insertingAt s t ?_]
    · exact h.bound u l p hheld hbound
    · rintro i v rfl rfl
      exact hu (HeldLocks.Agree.unique hlocks hheld (Move.sets hmove))

theorem Vars.backend [DecidableEq ι] (h : Vars s) (hlocks : s.LocksAgree)
    (hmove : Move seg s t (s.backend t) effect b) : Vars ((s.act t effect).put t b) :=
  ⟨fun _ hfree => h.free_backend hlocks hmove hfree,
    fun _ _ _ hheld hbound => h.bound_backend hlocks hmove hheld hbound⟩

/-- How a step changes the job of its backend; `n` records are in the log before it. -/
def JobStep (n : Nat) (t : ι) (before after : Option Job) : Effect ι → Prop
  | .reserve e => before = none ∧ after = some ⟨e.hold, n, e.stop, e.start⟩ ∧ e.owner = t
  | .copyTo k pos => ∃ h stop p, before = some ⟨h, k, stop, p⟩ ∧ after = some ⟨h, k, stop, pos⟩ ∧
      p ≤ pos ∧ pos ≤ stop
  | _ => after = before ∨ after = none ∧ ∃ h k pos, before = some ⟨h, k, pos, pos⟩

theorem job_back (again : Option Request) : job (Pc.back again) = none := by
  cases again <;> rfl

theorem Move.job (h : Move seg s t b effect b') : JobStep s.log.length t (job b.pc) (job b'.pc) effect := by
  cases h with
  | reserve | switch | checkpoint => exact ⟨rfl, rfl, rfl⟩
  | fill r w hold k stop pos pos' hlow hstop => exact ⟨hold, stop, pos, rfl, rfl, hlow, hstop⟩
  | copied r w hold k pos => exact .inr ⟨rfl, hold, k, pos, rfl⟩
  | freeOne r w i again => exact .inl (job_back again)
  | freeLast r w again => exact .inl (job_back again)
  | _ => exact .inl rfl

/-- The backends and the log agree on what is being copied and how far. -/
structure Copying (s : State ι κ) : Prop where
  job : ∀ t j, job (s.pc t) = some j → ∃ e, s.log[j.k]? = some e ∧ e.owner = t ∧ e.hold = j.hold ∧
    e.stop = j.stop ∧ s.copied j.k = j.pos
  entry : ∀ k e, s.log[k]? = some e → e.start ≤ s.copied k ∧ s.copied k ≤ e.stop ∧
    (s.copied k = e.stop ∨ WalInsertionWait.job (s.pc e.owner) = some ⟨e.hold, k, e.stop, s.copied k⟩)

variable {log : List (Entry ι)} {e : Entry ι}

theorem log_concat : (log ++ [e])[k]? = some x ↔ log[k]? = some x ∨ k = log.length ∧ x = e := by
  rw [getElem?_append]
  split_ifs with hk
  · simp [hk.ne]
  · rw [getElem?_eq_none (Nat.not_lt.mp hk), getElem?_singleton]
    split_ifs with hlen
    · have hlast : k = log.length := by omega
      simp [hlast, eq_comm]
    · have hout : k ≠ log.length := by omega
      simp [hout]

theorem log_lt (h : log[k]? = some e) : k < log.length := (List.getElem?_eq_some_iff.mp h).1

/-- Two jobs on one record are the same backend's. -/
theorem Copying.owner (h : Copying s) {u : ι} {i : Job}
    (hi : WalInsertionWait.job (s.pc t) = some i) (hj : WalInsertionWait.job (s.pc u) = some j)
    (hk : i.k = j.k) : t = u := by
  obtain ⟨e, he, rfl, -⟩ := h.job t i hi
  obtain ⟨e', he', rfl, -⟩ := h.job u j hj
  rw [hk, he'] at he
  rw [Option.some.inj he]

section Step

variable [DecidableEq ι]

theorem pc_self (s : State ι κ) (t : ι) (effect : Effect ι) (b : Backend) :
    ((s.act t effect).put t b).pc t = b.pc := by
  rw [State.pc, after_self]

theorem pc_other (s : State ι κ) (effect : Effect ι) (b : Backend) (hu : u ≠ t) :
    ((s.act t effect).put t b).pc u = s.pc u := by
  rw [State.pc, after_other s effect b hu]
  rfl

theorem Copying.reserve (h : Copying s) (hlow : e.start ≤ e.stop)
    (hjob : JobStep s.log.length t (WalInsertionWait.job (s.pc t)) (WalInsertionWait.job b.pc) (.reserve e)) :
    Copying ((s.act t (.reserve e)).put t b) := by
  obtain ⟨hnone, hnew, howner⟩ := hjob
  have hcopied : ∀ k, k < s.log.length → ((s.act t (.reserve e)).put t b).copied k = s.copied k :=
    fun k hk => update_of_ne (Nat.ne_of_lt hk) ..
  have hlast : ((s.act t (.reserve e)).put t b).copied s.log.length = e.start := update_self ..
  constructor
  · intro u j hj
    obtain rfl | hu := eq_or_ne u t
    · rw [pc_self, hnew] at hj
      cases hj
      exact ⟨e, log_concat.mpr (.inr ⟨rfl, rfl⟩), howner, rfl, rfl, hlast⟩
    · rw [pc_other s _ b hu] at hj
      obtain ⟨x, hx, hrest⟩ := h.job u j hj
      refine ⟨x, log_concat.mpr (.inl hx), ?_⟩
      rw [hcopied j.k (log_lt hx)]
      exact hrest
  · intro k x hx
    rcases log_concat.mp hx with hold | ⟨rfl, rfl⟩
    · rw [hcopied k (log_lt hold)]
      obtain ⟨hstart, hstop, hdone⟩ := h.entry k x hold
      refine ⟨hstart, hstop, hdone.imp_right ?_⟩
      intro hj
      have hu : x.owner ≠ t := by
        intro heq
        rw [heq, hnone] at hj
        cases hj
      rw [pc_other s _ b hu]
      exact hj
    · rw [hlast]
      refine ⟨le_rfl, hlow, .inr ?_⟩
      rw [howner, pc_self, hnew]

theorem Copying.copyTo (h : Copying s)
    (hjob : JobStep s.log.length t (WalInsertionWait.job (s.pc t)) (WalInsertionWait.job b.pc) (.copyTo k pos)) :
    Copying ((s.act t (.copyTo k pos)).put t b) := by
  obtain ⟨hold, stop, p, hbefore, hafter, hle, hstop⟩ := hjob
  have hself : ((s.act t (.copyTo k pos)).put t b).copied k = pos := update_self ..
  have hcopied : ∀ k', k' ≠ k → ((s.act t (.copyTo k pos)).put t b).copied k' = s.copied k' :=
    fun k' hk => update_of_ne hk ..
  obtain ⟨e, he, howner, hh, hs, hp⟩ := h.job t _ hbefore
  constructor
  · intro u j hj
    obtain rfl | hu := eq_or_ne u t
    · rw [pc_self, hafter] at hj
      cases hj
      exact ⟨e, he, howner, hh, hs, hself⟩
    · rw [pc_other s _ b hu] at hj
      have hk : j.k ≠ k := fun heq => hu (h.owner hj hbefore heq)
      rw [hcopied j.k hk]
      exact h.job u j hj
  · intro k' x hx
    obtain rfl | hk := eq_or_ne k' k
    · have hxe : x = e := Option.some.inj (hx.symm.trans he)
      obtain ⟨hstart, -, -⟩ := h.entry k' x hx
      rw [hself, hxe, hs]
      rw [hxe, hp] at hstart
      refine ⟨hstart.trans hle, hstop, .inr ?_⟩
      rw [howner, pc_self, hafter, hh]
    · rw [hcopied k' hk]
      obtain ⟨hstart, hend, hdone⟩ := h.entry k' x hx
      refine ⟨hstart, hend, hdone.imp_right ?_⟩
      intro hj
      have hu : x.owner ≠ t := by
        intro heq
        rw [heq, hbefore] at hj
        cases hj
        exact hk rfl
      rw [pc_other s _ b hu]
      exact hj

/-- A step that touches neither the log nor the copied bytes. -/
theorem Copying.keep (h : Copying s) (hlog : (s.act t effect).log = s.log)
    (hcopied : (s.act t effect).copied = s.copied)
    (hjob : WalInsertionWait.job b.pc = WalInsertionWait.job (s.pc t) ∨
      WalInsertionWait.job b.pc = none ∧ ∃ h k pos, WalInsertionWait.job (s.pc t) = some ⟨h, k, pos, pos⟩) :
    Copying ((s.act t effect).put t b) := by
  have hlog' : ((s.act t effect).put t b).log = s.log := hlog
  have hcopied' : ((s.act t effect).put t b).copied = s.copied := hcopied
  constructor
  · intro u j hj
    rw [hlog', hcopied']
    obtain rfl | hu := eq_or_ne u t
    · rw [pc_self] at hj
      rcases hjob with hsame | ⟨hnone, -⟩
      · rw [hsame] at hj
        exact h.job u j hj
      · rw [hnone] at hj
        cases hj
    · rw [pc_other s _ b hu] at hj
      exact h.job u j hj
  · intro k x hx
    rw [hlog'] at hx
    rw [hcopied']
    obtain ⟨hstart, hend, hdone⟩ := h.entry k x hx
    refine ⟨hstart, hend, ?_⟩
    by_cases hu : x.owner = t
    · rcases hdone with hstop | hj
      · exact .inl hstop
      · rcases hjob with hsame | ⟨-, hold, k', pos, hlast⟩
        · right
          rw [hu] at hj ⊢
          rw [pc_self, hsame]
          exact hj
        · left
          rw [hu, hlast] at hj
          injection Option.some.inj hj with _ _ hs hp
          rw [← hp, ← hs]
    · rw [pc_other s _ b hu]
      exact hdone

theorem Copying.backend (h : Copying s) (hmove : Move seg s t (s.backend t) effect b)
    (hplace : ∀ e, effect = .reserve e → e.start ≤ e.stop) : Copying ((s.act t effect).put t b) := by
  have hjob := Move.job hmove
  cases effect with
  | reserve e => exact h.reserve (hplace e rfl) hjob
  | copyTo => exact h.copyTo hjob
  | change c => cases c <;> exact h.keep rfl rfl hjob
  | _ => exact h.keep rfl rfl hjob

end Step

/-- An entry takes up the byte positions from `curr` on. -/
structure Placed (seg : WalSegSize) (curr : Nat) (e : Entry ι) : Prop where
  startByte : e.startByte = curr
  start : e.start = seg.xLogBytePosToRecPtr e.startByte
  stop : e.stop = seg.xLogBytePosToEndRecPtr e.stopByte
  lt : e.startByte < e.stopByte

theorem Placed.start_lt_stop (h : Placed seg curr e) : e.start < e.stop := by
  rw [h.start, h.stop]
  exact seg.recPtr_lt_endRecPtr h.lt

theorem totLen_pos (a : Attempt) : 0 < a.asm.header.totLen := by
  obtain ⟨-, -, -, -, hpos⟩ := assemble_ok a.made
  exact hpos

theorem alignTo_pos (h : 0 < n) : 0 < ByteImage.alignTo 8 n := h.trans_le (ByteImage.le_alignTo (by decide) n)

/-- The rest of the segment behind a switch record ends at a segment boundary. -/
theorem switch_stop (endPos : Nat) :
    seg.xLogBytePosToEndRecPtr (seg.xLogRecPtrToBytePos (endPos + (seg.size - seg.xLogSegmentOffset endPos))) =
      endPos + (seg.size - seg.xLogSegmentOffset endPos) := by
  have hpos : 0 < seg.size := Nat.two_pow_pos _
  have hend : endPos + (seg.size - seg.xLogSegmentOffset endPos) = (endPos / seg.size + 1) * seg.size := by
    have hmod := Nat.mod_lt endPos hpos
    have hdiv := Nat.div_add_mod' endPos seg.size
    rw [seg.xLogSegmentOffset_eq, Nat.succ_mul]
    omega
  rw [hend, seg.bytePos_segment, seg.endRecPtr_segment]

theorem switch_placed (h : reserveXLogSwitch seg curr = some slot) :
    slot.startByte = curr ∧ slot.start = seg.xLogBytePosToRecPtr curr ∧
      slot.stop = seg.xLogBytePosToEndRecPtr slot.stopByte ∧ curr < slot.stopByte := by
  rw [reserveXLogSwitch] at h
  have hsize : curr < curr + ByteImage.alignTo 8 sizeOfXLogRecord :=
    Nat.lt_add_of_pos_right (alignTo_pos (by decide))
  by_cases hstart : seg.xLogSegmentOffset (seg.xLogBytePosToEndRecPtr curr) = 0
  · rw [if_pos hstart] at h
    cases h
  · rw [if_neg hstart] at h
    simp only at h
    generalize hend : seg.xLogBytePosToEndRecPtr (curr + ByteImage.alignTo 8 sizeOfXLogRecord) = endPos at h
    by_cases hleft : seg.size - seg.xLogSegmentOffset endPos ≠ seg.size
    · rw [if_pos hleft] at h
      cases h
      refine ⟨rfl, rfl, switch_stop endPos |>.symm, ?_⟩
      by_contra hle
      have hmono := seg.endRecPtr_mono (Nat.not_lt.mp hle)
      have hlt := seg.recPtr_lt_endRecPtr hsize
      have hback := seg.endRecPtr_le_recPtr curr
      rw [switch_stop] at hmono
      omega
    · rw [if_neg hleft] at h
      cases h
      exact ⟨rfl, rfl, hend.symm, hsize⟩

theorem Move.placed (h : Move seg s t b (.reserve e) b') : Placed seg s.currBytePos e := by
  cases h with
  | reserve r w a i slot hslot | checkpoint r w a slot hcls hslot =>
    rw [hslot]
    exact ⟨rfl, rfl, rfl, Nat.lt_add_of_pos_right (alignTo_pos (totLen_pos a))⟩
  | switch r w a slot hcls hslot =>
    obtain ⟨hstart, hptr, hstop, hlt⟩ := switch_placed hslot
    refine ⟨hstart, ?_, hstop, ?_⟩
    · rw [← hstart] at hptr
      exact hptr
    · rw [← hstart] at hlt
      exact hlt

/-- The records follow one another from one byte position to another. -/
def Chain (seg : WalSegSize) : Nat → List (Entry ι) → Nat → Prop
  | base, [], curr => base = curr
  | base, e :: log, curr => Placed seg base e ∧ Chain seg e.stopByte log curr

theorem Chain.concat (h : Chain seg base log curr) (he : Placed seg curr e) : Chain seg base (log ++ [e]) e.stopByte := by
  induction log generalizing base with
  | nil =>
    rw [show base = curr from h]
    exact ⟨he, rfl⟩
  | cons x log ih => exact ⟨h.1, ih h.2⟩

/-- Every address between the first record and the end is in a record or in a page header. -/
theorem Chain.covers (h : Chain seg base log curr) (hlow : seg.xLogBytePosToEndRecPtr base ≤ a)
    (hhigh : a < seg.xLogBytePosToEndRecPtr curr) :
    (∃ (k : Nat) (e : Entry ι), log[k]? = some e ∧ e.start ≤ a ∧ a < e.stop) ∨
      a % xlogBlcksz < seg.pageHeaderSize (a - a % xlogBlcksz) := by
  induction log generalizing base with
  | nil =>
    rw [show base = curr from h] at hlow
    omega
  | cons x log ih =>
    obtain ⟨hplaced, hrest⟩ := h
    by_cases hbefore : a < x.start
    · right
      rw [hplaced.start, hplaced.startByte] at hbefore
      exact seg.header_between hlow hbefore
    · by_cases hin : a < x.stop
      · exact .inl ⟨0, x, rfl, Nat.not_lt.mp hbefore, hin⟩
      · rw [hplaced.stop] at hin
        exact (ih hrest (Nat.not_lt.mp hin)).imp_left fun ⟨k, e, he, hpos⟩ => ⟨k + 1, e, he, hpos⟩

/-- Everything reserved below `p` has been copied. -/
structure Safe (seg : WalSegSize) (s : State ι κ) (p : Nat) : Prop where
  reserved : p ≤ s.reservedEnd seg
  copied : ∀ k e, s.log[k]? = some e → Min.min p e.stop ≤ s.copied k

/-- What the run adds: new records behind the reserved end, and more copied bytes. -/
structure Grows (seg : WalSegSize) (s s' : State ι κ) : Prop where
  log : ∀ k e, s'.log[k]? = some e →
    s.log[k]? = some e ∨ s.log.length ≤ k ∧ s.reservedEnd seg ≤ e.start ∧ e.start ≤ s'.copied k
  length : s.log.length ≤ s'.log.length
  copied : ∀ k, k < s.log.length → s.copied k ≤ s'.copied k
  reserved : s.reservedEnd seg ≤ s'.reservedEnd seg

theorem Safe.grows (h : Safe seg s p) (hgrow : Grows seg s s') : Safe seg s' p := by
  refine ⟨h.reserved.trans hgrow.reserved, ?_⟩
  intro k e he
  rcases hgrow.log k e he with hold | ⟨-, hbehind, hstart⟩
  · exact (h.copied k e hold).trans (hgrow.copied k (log_lt hold))
  · have hp := h.reserved
    omega

theorem Grows.same (seg) (hlog : s'.log = s.log) (hcopied : s'.copied = s.copied)
    (hcurr : s'.currBytePos = s.currBytePos) : Grows seg s s' := by
  refine ⟨?_, ?_, ?_, ?_⟩
  · intro k e he
    rw [hlog] at he
    exact .inl he
  · rw [hlog]
  · intro k _
    rw [hcopied]
  · rw [State.reservedEnd, State.reservedEnd, hcurr]

/-- Of the records reserved before the sample, those whose lock has been looked at are copied up to the
position found; the later ones lie behind it. -/
structure Seen (seg : WalSegSize) (s : State ι κ) (finished n : Nat) (looked : LockNo → Prop) : Prop where
  reserved : finished ≤ s.reservedEnd seg
  later : ∀ k e, s.log[k]? = some e → n ≤ k → finished ≤ e.start
  copied : ∀ k e, s.log[k]? = some e → k < n → looked e.hold.progress → Min.min finished e.stop ≤ s.copied k

theorem Seen.grows (h : Seen seg s finished n looked) (hn : n ≤ s.log.length)
    (hgrow : Grows seg s s') : Seen seg s' finished n looked := by
  refine ⟨h.reserved.trans hgrow.reserved, ?_, ?_⟩
  · intro k e he hk
    rcases hgrow.log k e he with hold | ⟨-, hbehind, -⟩
    · exact h.later k e hold hk
    · exact h.reserved.trans hbehind
  · intro k e he hk hlooked
    rcases hgrow.log k e he with hold | ⟨hlen, -⟩
    · exact (h.copied k e hold hk hlooked).trans (hgrow.copied k (log_lt hold))
    · omega

theorem Seen.safe (h : Seen seg s finished n (fun _ => True)) (hcopying : Copying s) : Safe seg s finished := by
  refine ⟨h.reserved, ?_⟩
  intro k e he
  by_cases hk : k < n
  · exact h.copied k e he hk trivial
  · have hstart := (hcopying.entry k e he).1
    have hlater := h.later k e he (Nat.not_lt.mp hk)
    omega

/-- A lock that is free has no unfinished record. -/
theorem done_of_free (hlocks : s.LocksAgree) (hcopying : Copying s) (he : s.log[k]? = some e)
    (hfree : s.holder e.hold.progress = none) : s.copied k = e.stop := by
  rcases (hcopying.entry k e he).2.2 with hdone | hjob
  · exact hdone
  · have hheld := job_holds hjob
    rw [HeldLocks.Agree.free hlocks hfree] at hheld
    cases hheld

/-- A value on a lock is not ahead of the copying of its record. -/
theorem value_le (hvars : Vars s) (hcopying : Copying s) (he : s.log[k]? = some e) :
    Min.min (s.insertingAt e.hold.progress) e.stop ≤ s.copied k := by
  rcases (hcopying.entry k e he).2.2 with hdone | hjob
  · rw [hdone]
    exact Nat.min_le_right _ _
  · exact (Nat.min_le_left _ _).trans (hvars.bound _ _ _ (job_holds hjob) (job_bound hjob))

/-- Seeing the lock `j` free. -/
theorem Seen.free {j : LockNo} (h : Seen seg s finished n looked) (hlocks : s.LocksAgree)
    (hcopying : Copying s) (hfree : s.holder j = none) (hlooked : ∀ l, looked' l → looked l ∨ l = j) :
    Seen seg s finished n looked' := by
  refine ⟨h.reserved, h.later, ?_⟩
  intro k e he hk hnow
  rcases hlooked _ hnow with hbefore | hj
  · exact h.copied k e he hk hbefore
  · rw [done_of_free hlocks hcopying he (by rw [hj]; exact hfree)]
    exact Nat.min_le_right _ _

theorem lower_le (finished v : Nat) : lower finished v ≤ finished := by
  rw [lower]
  split_ifs with h
  · exact h.2.le
  · exact le_rfl

theorem lower_le_value (h : v ≠ 0 ∨ finished = 0) : lower finished v ≤ v := by
  rw [lower]
  split_ifs with hlt
  · exact le_rfl
  · rw [invalidXLogRecPtr] at hlt
    omega

/-- Seeing the value on the lock `j`. -/
theorem Seen.value {j : LockNo} (h : Seen seg s finished n looked) (hvars : Vars s) (hcopying : Copying s)
    (hzero : s.insertingAt j ≠ 0 ∨ finished = 0) (hlooked : ∀ l, looked' l → looked l ∨ l = j) :
    Seen seg s (lower finished (s.insertingAt j)) n looked' := by
  have hle := lower_le finished (s.insertingAt j)
  refine ⟨hle.trans h.reserved, ?_, ?_⟩
  · intro k e he hk
    exact hle.trans (h.later k e he hk)
  · intro k e he hk hnow
    rcases hlooked _ hnow with hbefore | hj
    · have hcopied := h.copied k e he hk hbefore
      omega
    · have hvalue := value_le hvars hcopying he
      have hlow := lower_le_value hzero
      rw [hj] at hvalue
      omega

/-- A backend's step only adds records and copied bytes. -/
theorem grows_act [DecidableEq ι] (hcopying : Copying s) (hmove : Move seg s t (s.backend t) effect b) :
    Grows seg s ((s.act t effect).put t b) := by
  cases effect with
  | reserve e =>
    have hplaced := Move.placed hmove
    have hstart : s.reservedEnd seg ≤ e.start := by
      rw [hplaced.start, hplaced.startByte]
      exact seg.endRecPtr_le_recPtr _
    refine ⟨?_, ?_, ?_, ?_⟩
    · intro k x hx
      rcases log_concat.mp hx with hold | ⟨rfl, rfl⟩
      · exact .inl hold
      · refine .inr ⟨le_rfl, hstart, ?_⟩
        show x.start ≤ Function.update s.copied s.log.length x.start s.log.length
        rw [update_self]
    · show s.log.length ≤ (s.log ++ [e]).length
      rw [length_append]
      exact Nat.le_add_right _ _
    · intro k hk
      exact (update_of_ne (Nat.ne_of_lt hk) ..).ge
    · have hle : s.currBytePos ≤ e.stopByte := by
        have hlt := hplaced.lt
        have heq := hplaced.startByte
        omega
      exact seg.endRecPtr_mono hle
  | copyTo k =>
    obtain ⟨hold, stop, p, hbefore, -, hle, -⟩ := Move.job hmove
    obtain ⟨e, -, -, -, -, hp⟩ := hcopying.job t _ hbefore
    refine ⟨fun _ _ he => .inl he, le_rfl, ?_, le_rfl⟩
    intro k' _
    obtain rfl | hk := eq_or_ne k' k
    · rw [show s.copied k' = p from hp]
      show p ≤ Function.update s.copied k' _ k'
      rw [update_self]
      exact hle
    · exact (update_of_ne hk ..).ge
  | change c => cases c <;> exact .same seg rfl rfl rfl
  | _ => exact .same seg rfl rfl rfl

/-- What a waiting thread knows at each place. -/
def WaiterOk (seg : WalSegSize) (s : State ι κ) : Waiter → Prop
  | .idle => True
  | .called _ reserved => reserved ≤ s.reservedEnd seg
  | .sample upto reserved => reserved ≤ s.reservedEnd seg ∧ 0 < upto
  | .wait upto reserved cap finished n j _ => cap ≤ finished ∧ (0 < cap ∨ finished = 0) ∧
      (upto ≤ reserved → upto ≤ cap) ∧ n ≤ s.log.length ∧ Seen seg s finished n (· < j)
  | .load upto reserved finished _ => (upto ≤ reserved → upto ≤ finished) ∧ Safe seg s finished
  | .advance upto reserved finished _ cur => (upto ≤ reserved → upto ≤ finished) ∧ Safe seg s finished ∧
      Safe seg s cur
  | .returned upto reserved p => (upto ≤ reserved → upto ≤ p) ∧ Safe seg s p

theorem WaiterOk.grows (h : WaiterOk seg s w) (hgrow : Grows seg s s') : WaiterOk seg s' w := by
  cases w with
  | idle => trivial
  | called => exact h.trans hgrow.reserved
  | sample => exact ⟨h.1.trans hgrow.reserved, h.2⟩
  | wait =>
    obtain ⟨hcap, hzero, hupto, hn, hseen⟩ := h
    exact ⟨hcap, hzero, hupto, hn.trans hgrow.length, hseen.grows hn hgrow⟩
  | load | returned => exact ⟨h.1, h.2.grows hgrow⟩
  | advance => exact ⟨h.1, h.2.1.grows hgrow, h.2.2.grows hgrow⟩

structure Inv (seg : WalSegSize) (base : Nat) (s : State ι κ) : Prop where
  locks : s.LocksAgree
  vars : Vars s
  copying : Copying s
  chain : Chain seg base s.log s.currBytePos
  result : Safe seg s s.logInsertResult
  waiters : ∀ x, WaiterOk seg s (s.waiter x)

theorem lock_lt_succ : ∀ j l : LockNo, j ≠ 7 → l < j + 1 → l < j ∨ l = j := by decide

theorem lock_lt_last : ∀ l : LockNo, l < 7 ∨ l = 7 := by decide

/-- The loop over the locks goes on with what has been seen of one more. -/
theorem next_ok {upto reserved : Nat} {j : LockNo} (hcopying : Copying s) (hcap : cap ≤ finished)
    (hzero : 0 < cap ∨ finished = 0) (hupto : upto ≤ reserved → upto ≤ cap) (hn : n ≤ s.log.length)
    (hseen : ∀ looked' : LockNo → Prop, (∀ l, looked' l → l < j ∨ l = j) → Seen seg s finished n looked') :
    WaiterOk seg s (Waiter.next upto reserved cap finished n j) := by
  rw [Waiter.next]
  split_ifs with hj
  · have hall : Seen seg s finished n (fun _ => True) := by
      apply hseen
      intro l _
      rw [hj]
      exact lock_lt_last l
    exact ⟨fun hle => (hupto hle).trans hcap, hall.safe hcopying⟩
  · exact ⟨hcap, hzero, hupto, hn, hseen _ (fun l hl => lock_lt_succ j l hj hl)⟩

theorem lower_ge (hf : cap ≤ finished) (hv : cap ≤ v) : cap ≤ lower finished v := by
  rw [lower]
  split_ifs
  · exact hv
  · exact hf

/-- A step of a waiting thread, before its effect on `logInsertResult`. -/
theorem WaiterOk.move {v : Option Nat} (hinv : Inv seg base s) (h : WaiterOk seg s w)
    (hmove : WaiterMove seg s w v w') : WaiterOk seg s w' := by
  cases hmove with
  | call => exact le_rfl
  | early upto reserved hle => exact ⟨fun _ => hle, hinv.result⟩
  | late upto reserved hlt => exact ⟨h, (Nat.zero_le _).trans_lt hlt⟩
  | sample =>
    obtain ⟨hres, hpos⟩ := h
    refine ⟨?_, ?_, ?_, le_rfl, ?_⟩
    · split_ifs with hlt
      · exact le_rfl
      · exact Nat.not_lt.mp hlt
    · split_ifs with hlt
      · omega
      · exact .inl hpos
    · intro hle
      rw [if_neg (by omega)]
    · refine ⟨le_rfl, ?_, ?_⟩
      · intro k e he hk
        exact absurd (log_lt he) (Nat.not_lt.mpr hk)
      · intro k e he hk hlt
        exact absurd hlt (Fin.not_lt_zero _)
  | free upto reserved cap finished n j seen hfree =>
    obtain ⟨hcap, hzero, hupto, hn, hseen⟩ := h
    apply next_ok hinv.copying hcap hzero hupto hn
    intro looked' hlooked
    exact hseen.free hinv.locks hinv.copying hfree hlooked
  | below => exact h
  | passed upto reserved cap finished n j seen hne hle =>
    obtain ⟨hcap, hzero, hupto, hn, hseen⟩ := h
    have hvalue : s.insertingAt j ≠ 0 ∨ finished = 0 := by omega
    have hfin : 0 < cap ∨ lower finished (s.insertingAt j) = 0 := by
      rcases hzero with hpos | hz
      · exact .inl hpos
      · have hle' := lower_le finished (s.insertingAt j)
        omega
    apply next_ok hinv.copying (lower_ge hcap hle) hfin hupto hn
    intro looked' hlooked
    exact hseen.value hinv.vars hinv.copying hvalue hlooked
  | load => exact ⟨h.1, h.2, hinv.result⟩
  | reached upto reserved finished n cur hle => exact ⟨fun hupto => (h.1 hupto).trans hle, h.2.2⟩
  | swap => exact ⟨h.1, h.2.1⟩
  | lost => exact ⟨h.1, h.2.1, hinv.result⟩
  | again => trivial

theorem Inv.backend [DecidableEq ι] (h : Inv seg base s) (hmove : Move seg s t (s.backend t) effect b) :
    Inv seg base ((s.act t effect).put t b) := by
  have hgrow := grows_act h.copying hmove
  have hplace : ∀ e, effect = .reserve e → e.start ≤ e.stop := by
    rintro e rfl
    exact (Move.placed hmove).start_lt_stop.le
  refine ⟨h.locks.backend hmove, h.vars.backend h.locks hmove, h.copying.backend hmove hplace, ?_, ?_, ?_⟩
  · cases effect with
    | reserve => exact h.chain.concat (Move.placed hmove)
    | change c => cases c <;> exact h.chain
    | _ => exact h.chain
  · have hsame : ((s.act t effect).put t b).logInsertResult = s.logInsertResult := by
      cases effect with
      | change c => cases c <;> rfl
      | _ => rfl
    rw [hsame]
    exact h.result.grows hgrow
  · intro x
    have hsame : ((s.act t effect).put t b).waiter x = s.waiter x := by
      rw [State.put, act_waiter]
    rw [hsame]
    exact (h.waiters x).grows hgrow

/-- A step of a waiting thread changes nothing that the others' knowledge is about. -/
theorem grows_waiter [DecidableEq κ] (seg : WalSegSize) (s : State ι κ) (x : κ) (v : Option Nat) (w : Waiter) :
    Grows seg s ((s.setResult v).putWaiter x w) := by
  cases v <;> exact .same seg rfl rfl rfl

theorem WaiterMove.safe (h : WaiterOk seg s w) (hmove : WaiterMove seg s w (some v) w') :
    Safe seg s v ∧ s.logInsertResult < v := by
  cases hmove with
  | swap upto reserved finished n cur hlt hcur =>
    rw [hcur]
    exact ⟨h.2.1, hlt⟩

theorem Inv.waiter [DecidableEq κ] (h : Inv seg base s) {x : κ} {v : Option Nat}
    (hmove : WaiterMove seg s (s.waiter x) v w) : Inv seg base ((s.setResult v).putWaiter x w) := by
  have hgrow := grows_waiter seg s x v w
  have hwaiters : ∀ y, WaiterOk seg ((s.setResult v).putWaiter x w) (((s.setResult v).putWaiter x w).waiter y) := by
    intro y
    have hsame : (s.setResult v).waiter = s.waiter := by cases v <;> rfl
    obtain rfl | hy := eq_or_ne y x
    · rw [putWaiter_self]
      exact (WaiterOk.move h (h.waiters y) hmove).grows hgrow
    · rw [putWaiter_other _ w hy, hsame]
      exact (h.waiters y).grows hgrow
  cases v with
  | none => exact ⟨h.locks, ⟨h.vars.free, h.vars.bound⟩, ⟨h.copying.job, h.copying.entry⟩, h.chain, h.result.grows hgrow, hwaiters⟩
  | some =>
    exact ⟨h.locks, ⟨h.vars.free, h.vars.bound⟩, ⟨h.copying.job, h.copying.entry⟩, h.chain,
      (WaiterMove.safe (h.waiters x) hmove).1.grows hgrow, hwaiters⟩

theorem Initial.inv (h : Initial seg s) : Inv seg s.currBytePos s := by
  refine ⟨h.locksAgree, ⟨fun l _ => h.clear l, ?_⟩, ⟨?_, ?_⟩, ?_, ⟨h.result, ?_⟩, ?_⟩
  · intro t l p hheld
    rw [h.backend] at hheld
    cases hheld
  · intro t j hj
    rw [h.backend] at hj
    cases hj
  · intro k e he
    rw [h.log] at he
    cases he
  · rw [h.log]
    rfl
  · intro k e he
    rw [h.log] at he
    cases he
  · intro x
    rw [h.waiter]
    trivial

theorem reachable_inv [DecidableEq ι] [DecidableEq κ] (h : Reachable seg init s) (hinit : Initial seg init) :
    Inv seg init.currBytePos s := by
  induction h with
  | init => exact Initial.inv hinit
  | step _ hstep ih =>
    cases hstep with
    | backend t hmove => exact ih.backend hmove
    | waiter x hmove => exact ih.waiter hmove

/-- The byte of the WAL at address `a` has been copied: it belongs to a record that has been copied
beyond it, or to the header of its page. -/
def ByteCopied (seg : WalSegSize) (s : State ι κ) (a : Nat) : Prop :=
  (∃ (k : Nat) (e : Entry ι), s.log[k]? = some e ∧ e.start ≤ a ∧ a < e.stop ∧ a < s.copied k) ∨
    a % xlogBlcksz < seg.pageHeaderSize (a - a % xlogBlcksz)

theorem Safe.byteCopied (h : Safe seg s p) (hchain : Chain seg base s.log s.currBytePos)
    (hlow : seg.xLogBytePosToEndRecPtr base ≤ a) (ha : a < p) : ByteCopied seg s a := by
  rcases hchain.covers hlow (ha.trans_le h.reserved) with ⟨k, e, he, hstart, hstop⟩ | hheader
  · have hcopied := h.copied k e he
    exact .inl ⟨k, e, he, hstart, hstop, by omega⟩
  · exact .inr hheader

theorem Safe.complete (h : Safe seg s p) (hcopying : Copying s) (he : s.log[k]? = some e)
    (hp : e.stop ≤ p) : s.copied k = e.stop := by
  have hle := (hcopying.entry k e he).2.1
  have hge := h.copied k e he
  omega

theorem step_result [DecidableEq ι] [DecidableEq κ] (hinv : Inv seg base s) (h : Step seg s s') :
    s.logInsertResult ≤ s'.logInsertResult := by
  cases h with
  | @backend t effect b hmove =>
    cases effect with
    | change c => cases c <;> exact le_rfl
    | _ => exact le_rfl
  | @waiter x v w hmove =>
    cases v with
    | none => exact le_rfl
    | some => exact (WaiterMove.safe (hinv.waiters x) hmove).2.le

/-- In every run, whatever a call of `WaitXLogInsertionsToFinish(upto)` returned, and likewise
`logInsertResult`, is a position below which every byte of the WAL has been copied: the records that
end there are complete, and a record across it is copied up to it. The position is at least `upto` if
that was not beyond the reserved end at the call, and `logInsertResult` never falls. -/
theorem wait_sound [DecidableEq ι] [DecidableEq κ] (hinit : Initial seg init) (h : Reachable seg init s) :
    (∀ x upto reserved p, s.waiter x = .returned upto reserved p →
      (∀ a, seg.xLogBytePosToEndRecPtr init.currBytePos ≤ a → a < p → ByteCopied seg s a) ∧
      (∀ k e, s.log[k]? = some e → e.stop ≤ p → s.copied k = e.stop) ∧
      (upto ≤ reserved → upto ≤ p)) ∧
    (∀ a, seg.xLogBytePosToEndRecPtr init.currBytePos ≤ a → a < s.logInsertResult → ByteCopied seg s a) ∧
    (∀ k e, s.log[k]? = some e → e.stop ≤ s.logInsertResult → s.copied k = e.stop) ∧
    ∀ s', Step seg s s' → s.logInsertResult ≤ s'.logInsertResult := by
  have hinv := reachable_inv h hinit
  refine ⟨?_, ?_, ?_, ?_⟩
  · intro x upto reserved p hx
    have hok := hinv.waiters x
    rw [hx] at hok
    obtain ⟨hupto, hsafe⟩ := hok
    refine ⟨?_, ?_, hupto⟩
    · intro a hlow ha
      exact hsafe.byteCopied hinv.chain hlow ha
    · intro k e he hp
      exact hsafe.complete hinv.copying he hp
  · intro a hlow ha
    exact hinv.result.byteCopied hinv.chain hlow ha
  · intro k e he hp
    exact hinv.result.complete hinv.copying he hp
  · intro s' hstep
    exact step_result hinv hstep

/-- In every run the records follow one another without a gap or an overlap, and the settings change only
while no other backend is under an insertion lock. -/
theorem insertions_ordered [DecidableEq ι] [DecidableEq κ] (hinit : Initial seg init) (h : Reachable seg init s) :
    Chain seg init.currBytePos s.log s.currBytePos ∧
    ∀ t c b, Move seg s t (s.backend t) (.change c) b → ∀ u l, (s.pc u).holds l = true → u = t := by
  have hinv := reachable_inv h hinit
  exact ⟨hinv.chain, fun t c b hmove u l hu => hinv.locks.alone hmove.changes hu⟩

namespace Run

/-- Main data that does not fit on a page. -/
def main : List UInt8 := List.replicate 10000 0

def request : Request where
  rmid := 10
  info := 0
  recordFlags := 0
  mainData := [main]
  blocks := []
  special_blocks := fun _ => rfl

def session : Session where
  walCompression := .none
  signed := true
  stale := fun _ => ⟨fun _ => 0, fun _ => ⟨0, 0, 0, 0⟩⟩
  origin := 0
  topXid := none
  xid := 3

def header : List UInt8 := xlrBlockIdDataLong :: ByteImage.leBytes 4 10000

def assembled : Assembled where
  header := ⟨10029, 3, 0, 0, 10, pgCompCrc32c crc32cInit (header ++ main)⟩
  body := header ++ main
  hdrLen := 29
  fpwLsn := 0
  numFpi := 0
  topxidIncluded := false
  plans := []

theorem made : assemble session 10 0 0 false 0 [main] [] = .ok assembled := by
  have hflat : [main].flatten = main := by rw [flatten_cons, flatten_nil, append_nil]
  have hmain : main.length = 10000 := length_replicate
  have hhdr : mainHeader 10000 = .ok header := rfl
  have hlen : sizeOfXLogRecord + (header ++ main).length = 10029 := by
    rw [length_append, hmain]
    rfl
  have hrest : originHeader session 0 = [] := rfl
  have htop : topXidHeader session = [] := rfl
  simp only [assemble, assembleBlocks, bind, Except.bind, hflat, hmain, hhdr, hrest, htop,
    nil_append, append_nil, hlen]
  rfl

def attempt : Attempt := ⟨request, session, 0, false, assembled, made⟩

theorem segments_low : 20 ≤ 24 := by decide

theorem segments_high : 24 ≤ 30 := by decide

def segments : WalSegSize := ⟨24, segments_low, segments_high⟩

def start : State Unit Unit where
  redoRecPtr := 0
  fullPageWrites := false
  runningBackups := 0
  currBytePos := 0
  prevBytePos := 0
  holder := fun _ => none
  insertingAt := fun _ => 0
  logInsertResult := 0
  log := []
  copied := fun _ => 0
  backend := fun _ => ⟨0, false, .idle⟩
  waiter := fun _ => .idle

theorem start_initial : Initial segments start where
  free := fun _ => rfl
  clear := fun _ => rfl
  result := Nat.zero_le _
  log := rfl
  backend := fun _ => rfl
  waiter := fun _ => rfl

def slot : Slot := ⟨0, 10032, 40, 10096⟩

def entry : Entry Unit := start.entry () ⟨0, false, .reserve attempt 0⟩ attempt (.one 0) slot

/-- The record is copied up to the end of its first page, its backend publishes that, and a call that
waits for the first page returns. -/
theorem returned_inside : ∃ s, Reachable segments start s ∧ s.waiter () = .returned 8192 10096 8192 ∧
    s.log = [entry] ∧ s.copied 0 = 8192 := by
  have h₀ : Reachable segments start start := .init
  have h₁ := h₀.step (.backend () (.begin 0 false request))
  have h₂ := h₁.step (.backend () (.assembled 0 false attempt rfl rfl rfl))
  have h₃ := h₂.step (.backend () (.acquire 0 false attempt 0 rfl))
  have h₄ := h₃.step (.backend () (.loadRedo 0 false attempt 0))
  have h₅ := h₄.step (.backend () (.loadWrites 0 false attempt 0))
  have h₆ := h₅.step (.backend () (.loadBackups 0 false attempt 0 false))
  have h₇ := h₆.step (.backend () (.fresh 0 false attempt 0 rfl))
  have h₈ := h₇.step (.backend () (.reserve 0 false attempt 0 slot rfl))
  have h₉ := h₈.step (.backend () (.cached 0 false (.one 0) 0 10096 40))
  have h₁₀ := h₉.step (.backend () (.fill 0 false (.one 0) 0 10096 40 8192 (by decide) (by decide) (by decide)))
  have h₁₁ := h₁₀.step (.backend () (.publish 0 false (.one 0) 0 10096 8192))
  have w₁ := h₁₁.step (.waiter () (.call 8192))
  have w₂ := w₁.step (.waiter () (.late 8192 10096 (by decide)))
  have w₃ := w₂.step (.waiter () (.sample 8192 10096))
  have w₄ := w₃.step (.waiter () (.passed 8192 10096 8192 10096 1 0 0 (by decide) (by decide)))
  have w₅ := w₄.step (.waiter () (.free 8192 10096 8192 8192 1 1 0 rfl))
  have w₆ := w₅.step (.waiter () (.free 8192 10096 8192 8192 1 2 0 rfl))
  have w₇ := w₆.step (.waiter () (.free 8192 10096 8192 8192 1 3 0 rfl))
  have w₈ := w₇.step (.waiter () (.free 8192 10096 8192 8192 1 4 0 rfl))
  have w₉ := w₈.step (.waiter () (.free 8192 10096 8192 8192 1 5 0 rfl))
  have w₁₀ := w₉.step (.waiter () (.free 8192 10096 8192 8192 1 6 0 rfl))
  have w₁₁ := w₁₀.step (.waiter () (.free 8192 10096 8192 8192 1 7 0 rfl))
  have w₁₂ := w₁₁.step (.waiter () (.load 8192 10096 8192 1))
  have w₁₃ := w₁₂.step (.waiter () (.swap 8192 10096 8192 1 0 (by decide) rfl))
  exact ⟨_, w₁₃, rfl, rfl, rfl⟩

/-- So the byte at 100, below the position returned, belongs to a record that has not been copied
completely. -/
theorem incomplete_below_returned : ∃ s, Initial segments start ∧ Reachable segments start s ∧
    s.waiter () = .returned 8192 10096 8192 ∧ s.log = [entry] ∧ entry.start ≤ 100 ∧ 100 < entry.stop ∧
    s.copied 0 ≠ entry.stop := by
  obtain ⟨s, hreach, hwaiter, hlog, hcopied⟩ := returned_inside
  refine ⟨s, start_initial, hreach, hwaiter, hlog, by decide, by decide, ?_⟩
  rw [hcopied]
  decide

theorem wait_sound_inside : ∃ s, Reachable segments start s ∧ s.waiter () = .returned 8192 10096 8192 ∧
    (∀ a, 0 ≤ a → a < 8192 → ByteCopied segments s a) ∧ 8192 ≤ 8192 := by
  obtain ⟨s, hreach, hwaiter, -, -⟩ := returned_inside
  obtain ⟨hbytes, -, hupto⟩ := (wait_sound start_initial hreach).1 () 8192 10096 8192 hwaiter
  exact ⟨s, hreach, hwaiter, hbytes, hupto (by decide)⟩

theorem insertions_inside : ∃ s, Reachable segments start s ∧ Chain segments 0 [entry] s.currBytePos := by
  obtain ⟨s, hreach, -, hlog, -⟩ := returned_inside
  exact ⟨s, hreach, hlog ▸ (insertions_ordered start_initial hreach).1⟩

end Run

end WalInsertionWait
