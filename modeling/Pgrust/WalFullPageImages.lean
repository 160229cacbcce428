import Pgrust.WalInsertion

/-!
Full-page images. The images of a record are decided before any lock is taken, from the backend's own
copies of the redo pointer and of the page-write setting. The test under the insertion lock compares
them with the shared values, and the lock keeps those in force until the record has its place.
-/

namespace WalFullPageImages

open XLogAssemble WalPositions WalInsertion List

variable {ι κ : Type} {seg : WalSegSize} {init s : State ι κ} {t : ι} {b : Backend} {effect : Effect ι}

/-- What a backend has read under its insertion lock is in force, and a record about to be placed has
passed the test. -/
def InForce (s : State ι κ) (b : Backend) : Prop :=
  match b.pc with
  | .loadWrites _ _ => b.redoRecPtr = s.redoRecPtr
  | .loadBackups _ _ fpw => b.redoRecPtr = s.redoRecPtr ∧ fpw = s.fullPageWrites
  | .check _ _ => b.redoRecPtr = s.redoRecPtr ∧ b.doPageWrites = s.writes
  | .reserve a _ => b.redoRecPtr = s.redoRecPtr ∧ b.doPageWrites = s.writes ∧ a.stale s.redoRecPtr s.writes = false
  | _ => True

theorem inForce_of_unlocked (s : State ι κ) (h : ∀ l, b.pc.holds l = false) : InForce s b := by
  obtain ⟨r, w, pc⟩ := b
  cases pc with
  | loadWrites a i | loadBackups a i | check a i | reserve a i =>
    exact absurd (decide_eq_true rfl) (Bool.eq_false_iff.mp (h i))
  | _ => trivial

/-- Each load under the lock brings what is in force. -/
theorem InForce.move (h : InForce s b) (hmove : Move seg s t b effect b') : InForce (s.act t effect) b' := by
  cases hmove with
  | loadRedo => exact rfl
  | loadWrites => exact ⟨h, rfl⟩
  | loadBackups =>
    obtain ⟨hredo, hfpw⟩ := h
    refine ⟨hredo, ?_⟩
    rw [State.writes, State.act, ← hfpw]
  | fresh r w a i hfresh =>
    obtain ⟨hredo, hwrites⟩ := h
    simp only at hredo hwrites
    rw [hredo, hwrites] at hfresh
    exact ⟨hredo, hwrites, hfresh⟩
  | freeOne r w i again | freeLast r w again => cases again <;> trivial
  | _ => trivial

/-- Other backends' steps leave it in force: they cannot change the settings meanwhile. -/
theorem InForce.other (h : InForce s b) (hlocks : s.LocksAgree) (hb : s.backend u = b) (hu : u ≠ t)
    (hmove : Move seg s t (s.backend t) effect b') : InForce (s.act t effect) b := by
  cases effect with
  | change =>
    apply inForce_of_unlocked
    intro l
    by_contra hheld
    rw [Bool.not_eq_false, ← hb] at hheld
    exact hu (hlocks.alone hmove.changes hheld)
  | _ => exact h

/-- A record in the log passed the test with the values in force, or refers to no blocks. -/
def Tested (e : Entry ι) : Prop :=
  e.attempt.req.cls ≠ .normal ∨
    e.seenRedo = e.redo ∧ e.seenWrites = e.writes ∧ e.attempt.stale e.redo e.writes = false

theorem tested_of_move (h : InForce s b) (hmove : Move seg s t b (.reserve e) b') : Tested e := by
  cases hmove with
  | reserve => exact .inr h
  | switch r w a slot hcls | checkpoint r w a slot hcls =>
    left
    rw [show (s.entry t _ a .all slot).attempt = a from rfl, hcls]
    decide

structure Inv (s : State ι κ) : Prop where
  locks : s.LocksAgree
  reads : ∀ t, InForce s (s.backend t)
  log : ∀ e ∈ s.log, Tested e

theorem Initial.inv (h : Initial seg s) : Inv s := by
  refine ⟨h.locksAgree, ?_, ?_⟩
  · intro t
    apply inForce_of_unlocked
    intro l
    have hpc : (s.backend t).pc = .idle := h.backend t
    rw [hpc]
    rfl
  · intro e he
    rw [h.log] at he
    cases he

theorem mem_log (h : e ∈ (s.act t effect).log) : e ∈ s.log ∨ effect = .reserve e := by
  cases effect with
  | reserve =>
    rcases mem_append.mp h with hold | hnew
    · exact .inl hold
    · right
      rw [mem_singleton.mp hnew]
  | change c => cases c <;> exact .inl h
  | _ => exact .inl h

theorem Inv.backend [DecidableEq ι] (h : Inv s) (hmove : Move seg s t (s.backend t) effect b) :
    Inv ((s.act t effect).put t b) := by
  refine ⟨h.locks.backend hmove, ?_, ?_⟩
  · intro u
    obtain rfl | hu := eq_or_ne u t
    · rw [after_self]
      exact (h.reads u).move hmove
    · rw [after_other s effect b hu]
      exact (h.reads u).other h.locks rfl hu hmove
  · intro e he
    rcases mem_log he with hold | rfl
    · exact h.log e hold
    · exact tested_of_move (h.reads t) hmove

theorem Inv.waiter [DecidableEq κ] (h : Inv s) (x : κ) (v : Option Nat) (w : Waiter) :
    Inv ((s.setResult v).putWaiter x w) := by
  cases v with
  | none | some => exact ⟨h.locks, h.reads, h.log⟩

theorem reachable_inv [DecidableEq ι] [DecidableEq κ] (h : Reachable seg init s) (hinit : Initial seg init) :
    Inv s := by
  induction h with
  | init => exact Initial.inv hinit
  | step _ hstep ih =>
    cases hstep with
    | backend t hmove => exact ih.backend hmove
    | waiter x => exact ih.waiter x _ _

/-- A record that passed the test has every image that an assembly with the values in force would have
given it. -/
theorem backs_of_fresh {a : Attempt} {redo : Nat} {writes : Bool} (h : a.stale redo writes = false)
    {blk : RegBlock} (hblk : blk ∈ a.req.blocks) (hdue : backs redo writes blk = true) :
    backs a.redo a.writes blk = true := by
  by_contra hmissing
  rw [Bool.not_eq_true] at hmissing
  obtain ⟨hwrites, hskipped⟩ := skipped_of_stale hdue hmissing
  have hstale : a.stale redo writes = true := by
    rw [Attempt.stale, hwrites]
    cases hold : a.writes with
    | false => rfl
    | true =>
      obtain ⟨hskip, hlsn⟩ := hskipped hold
      obtain ⟨hne, hle⟩ := (assemble_images a.made).2 blk hblk hskip
      have hle' : a.asm.fpwLsn ≤ redo := hle.trans hlsn
      rw [bne_iff_ne.mpr hne, decide_eq_true hle']
      rfl
  rw [h] at hstale
  cases hstale

/-- The images of a logged record, block by block. -/
theorem Tested.images (h : Tested e) :
    List.Forall₂ (fun blk plan => backs e.redo e.writes blk = true → plan.image.isSome = true)
      e.attempt.req.blocks e.attempt.asm.plans := by
  have hplanned := (assemble_images e.attempt.made).1
  rcases h with hspecial | ⟨-, -, hfresh⟩
  · have hnone := e.attempt.req.special_blocks hspecial
    rw [hnone, forall₂_nil_left_iff] at hplanned
    rw [hnone, hplanned]
    exact .nil
  · have hall := (forall₂_and_left _ _).mpr ⟨fun blk (hblk : blk ∈ e.attempt.req.blocks) => hblk, hplanned⟩
    apply hall.imp
    intro blk plan hboth hdue
    obtain ⟨hblk, hplan⟩ := hboth
    rw [hplan, backs_of_fresh hfresh hblk hdue]
    rfl

/-- In every run, a record that has its place in the log carries the image of every registered block
whose page is at or below the redo pointer in force, if full page writes are in force and the block is
not exempt; these are the values its backend has read under the insertion lock. More generally it
carries every image that an assembly with the values in force would have given it, so that a record
assembled with other values goes in only where they make it lack no image. -/
theorem full_page_images [DecidableEq ι] [DecidableEq κ] (hinit : Initial seg init)
    (h : Reachable seg init s) {e : Entry ι} (he : e ∈ s.log) :
    List.Forall₂ (fun blk plan =>
        (hasFlag blk.flags regbufNoImage = false → e.writes = true → pageLsn blk.page ≤ e.redo →
          plan.image.isSome = true) ∧
        (backs e.redo e.writes blk = true → plan.image.isSome = true))
      e.attempt.req.blocks e.attempt.asm.plans ∧
    (e.attempt.req.cls = .normal → e.seenRedo = e.redo ∧ e.seenWrites = e.writes) := by
  have htested := (reachable_inv h hinit).log e he
  refine ⟨?_, ?_⟩
  · apply htested.images.imp
    intro blk plan himage
    refine ⟨?_, himage⟩
    intro hallow hwrites hlsn
    apply himage
    rw [hwrites]
    exact backs_of_due hallow hlsn
  · intro hnormal
    obtain ⟨hredo, hwrites, -⟩ := htested.resolve_left fun hspecial => hspecial hnormal
    exact ⟨hredo, hwrites⟩

namespace Run

/-- A page with LSN 16. -/
def page : List UInt8 := [0, 0, 0, 0, 16, 0, 0, 0] ++ List.replicate 8184 0

def block : RegBlock where
  blockId := 0
  rlocator := ⟨1663, 5, 16384⟩
  forknum := .mainForknum
  block := 0
  page := page
  flags := regbufStandard
  bufdata := [[7]]
  page_length := by rw [page, length_append, length_replicate]; rfl

def request : Request where
  rmid := 10
  info := 0
  recordFlags := 0
  mainData := []
  blocks := [block]
  special_blocks := fun h => absurd rfl h

def session : Session where
  walCompression := .none
  signed := true
  stale := fun _ => ⟨fun _ => 0, fun _ => ⟨0, 0, 0, 0⟩⟩
  origin := 0
  topXid := none
  xid := 3

def body : List UInt8 := blockHeader block ⟨true, none⟩ false ++ [7]

theorem block_lsn : pageLsn block.page = 16 := rfl

theorem block_skipped : needsBackup 4 true block invalidXLogRecPtr = (false, 16) := by
  rw [needsBackup, block_lsn]
  rfl

def assembled : Assembled where
  header := ⟨24 + body.length, 3, 0, 0, 10, pgCompCrc32c crc32cInit body⟩
  body := body
  hdrLen := 24 + (blockHeader block ⟨true, none⟩ false).length
  fpwLsn := 16
  numFpi := 0
  topxidIncluded := false
  plans := [⟨true, none⟩]

theorem made : assemble session 10 0 4 true 0 [] [block] = .ok assembled := by
  simp only [assemble, assembleBlocks, assembleBlock, block_skipped]
  rfl

def attempt : Attempt := ⟨request, session, 4, true, assembled, made⟩

def segments : WalSegSize := ⟨24, by decide, by decide⟩

/-- The redo pointer has moved from 4 to 8 since the backend last looked. -/
def start : State Unit Unit where
  redoRecPtr := 8
  fullPageWrites := true
  runningBackups := 0
  currBytePos := 0
  prevBytePos := 0
  holder := fun _ => none
  insertingAt := fun _ => 0
  logInsertResult := 0
  log := []
  copied := fun _ => 0
  backend := fun _ => ⟨4, true, .idle⟩
  waiter := fun _ => .idle

def entry : Entry Unit :=
  start.entry () ⟨8, true, .reserve attempt 0⟩ attempt (.one 0)
    (reserveXLogInsertLocation segments 0 (24 + body.length))

theorem start_initial : Initial segments start where
  free := fun _ => rfl
  clear := fun _ => rfl
  result := Nat.zero_le _
  log := rfl
  backend := fun _ => rfl
  waiter := fun _ => rfl

/-- The record assembled with the old redo pointer passes the test, since its block's page is above the
new one as well, and is placed. -/
theorem placed : ∃ s, Reachable segments start s ∧ entry ∈ s.log := by
  have h₀ : Reachable segments start start := .init
  have h₁ := h₀.step (.backend () (.begin 4 true request))
  have h₂ := h₁.step (.backend () (.assembled 4 true attempt rfl rfl rfl))
  have h₃ := h₂.step (.backend () (.acquire 4 true attempt 0 rfl))
  have h₄ := h₃.step (.backend () (.loadRedo 4 true attempt 0))
  have h₅ := h₄.step (.backend () (.loadWrites 8 true attempt 0))
  have h₆ := h₅.step (.backend () (.loadBackups 8 true attempt 0 true))
  have h₇ := h₆.step (.backend () (.fresh 8 true attempt 0 rfl))
  have h₈ := h₇.step (.backend () (.reserve 8 true attempt 0 _ rfl))
  exact ⟨_, h₈, mem_singleton.mpr rfl⟩

/-- So a record assembled with an outdated redo pointer can be inserted. -/
theorem outdated_inserted : ∃ s, Initial segments start ∧ Reachable segments start s ∧
    ∃ e ∈ s.log, e.attempt.req.cls = .normal ∧ e.attempt.redo ≠ e.redo ∧ e.seenRedo = e.redo := by
  obtain ⟨s, hreach, hmem⟩ := placed
  exact ⟨s, start_initial, hreach, entry, hmem, rfl, by decide, rfl⟩

theorem full_page_images_placed : ∃ s, Reachable segments start s ∧ entry ∈ s.log ∧
    List.Forall₂ (fun (blk : RegBlock) (plan : BlockPlan) =>
        (hasFlag blk.flags regbufNoImage = false → entry.writes = true → pageLsn blk.page ≤ entry.redo →
          plan.image.isSome = true) ∧
        (backs entry.redo entry.writes blk = true → plan.image.isSome = true))
      [block] [⟨true, none⟩] ∧ entry.seenRedo = entry.redo := by
  obtain ⟨s, hreach, hmem⟩ := placed
  obtain ⟨himages, hseen⟩ := full_page_images start_initial hreach hmem
  exact ⟨s, hreach, hmem, himages, (hseen rfl).1⟩

end Run

end WalFullPageImages
