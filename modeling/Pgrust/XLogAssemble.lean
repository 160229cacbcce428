import Pgrust.ByteImage
import Pgrust.PglzCompress

/-!
Assembly of a WAL record (`xloginsert`): which of the registered blocks get a full-page image, and
the bytes of the record. Numbers are stored in the little-endian order of the supported targets.
-/

namespace XLogAssemble

open ByteImage PglzCompress

def invalidXLogRecPtr : Nat := 0

def blcksz : Nat := 8192

def sizeOfXLogRecord : Nat := 24

def xlrMaxBlockId : Nat := 32

def xLogRecordMaxSize : Nat := 1020 * 1024 * 1024

def sizeOfXLogRecordBlockCompressHeader : Nat := 2

def sizeOfPageHeaderData : Nat := 24

def xlrBlockIdDataShort : UInt8 := 255

def xlrBlockIdDataLong : UInt8 := 254

def xlrBlockIdOrigin : UInt8 := 253

def xlrBlockIdToplevelXid : UInt8 := 252

def xlrCheckConsistency : UInt8 := 0x02

def regbufForceImage : UInt8 := 0x01

def regbufNoImage : UInt8 := 0x02

def regbufWillInit : UInt8 := 0x04 ||| 0x02

def regbufStandard : UInt8 := 0x08

def regbufKeepData : UInt8 := 0x10

def bkpblockForkMask : UInt8 := 0x0F

def bkpblockHasImage : UInt8 := 0x10

def bkpblockHasData : UInt8 := 0x20

def bkpblockWillInit : UInt8 := 0x40

def bkpblockSameRel : UInt8 := 0x80

def bkpimageHasHole : UInt8 := 0x01

def bkpimageApply : UInt8 := 0x02

def bkpimageCompressPglz : UInt8 := 0x04

def xlogIncludeOrigin : UInt8 := 0x01

structure RelFileLocator where
  spcOid : UInt32
  dbOid : UInt32
  relNumber : UInt32
  deriving DecidableEq

inductive ForkNumber
  | invalidForkNumber
  | mainForknum
  | fsmForknum
  | visibilitymapForknum
  | initForknum
  deriving DecidableEq

/-- `forknum as i32 as u8`. -/
def ForkNumber.toU8 : ForkNumber → UInt8
  | invalidForkNumber => 0xFF
  | mainForknum => 0
  | fsmForknum => 1
  | visibilitymapForknum => 2
  | initForknum => 3

/-- A block reference. -/
structure RegBlock where
  blockId : UInt8
  rlocator : RelFileLocator
  forknum : ForkNumber
  block : UInt32
  page : List UInt8
  flags : UInt8
  bufdata : List (List UInt8)
  page_length : page.length = blcksz

/-- The flag `mask` is set in `flags`. -/
def hasFlag (flags mask : UInt8) : Bool := flags &&& mask != 0

/-- The word of `w` bytes at `off`. -/
def wordAt (w : Nat) (b : List UInt8) (off : Nat) : Nat := leNat ((b.drop off).take w)

/-- `pd_lsn` is stored as two halves, the high one first. -/
def pageLsn (page : List UInt8) : Nat := wordAt 4 page 0 * 2 ^ 32 + wordAt 4 page 4

/-- `needs_backup` of one block, and `fpw_lsn` after it: the least LSN of the blocks left without
an image only because it lies above the redo pointer. -/
def needsBackup (redoRecPtr : Nat) (doPageWrites : Bool) (blk : RegBlock) (fpwLsn : Nat) : Bool × Nat :=
  if hasFlag blk.flags regbufForceImage then (true, fpwLsn)
  else if hasFlag blk.flags regbufNoImage || !doPageWrites then (false, fpwLsn)
  else
    let lsn := pageLsn blk.page
    let backup := decide (lsn ≤ redoRecPtr)
    (backup,
      if !backup && (fpwLsn == invalidXLogRecPtr || decide (lsn < fpwLsn)) then lsn else fpwLsn)

inductive WalCompression
  | none
  | pglz
  | lz4
  | zstd
  deriving DecidableEq

inductive AssembleError
  | misorderedBlockIds (prev cur : UInt8)
  | tooManyRegisteredBuffers
  | tooMuchBlockData (blockId : UInt8)
  | compressionNotSupported
  | tooMuchMainData (len : Nat)
  | oversizedRecord (totalLen : Nat) (rmid info : UInt8)
  deriving DecidableEq

def AssembleError.message : AssembleError → String
  | misorderedBlockIds prev cur =>
    s!"block IDs must be registered in ascending order: {cur} after {prev}"
  | tooManyRegisteredBuffers => "too many registered buffers"
  | tooMuchBlockData blockId =>
    s!"too much WAL data: registering more than maximum 65535 bytes allowed to block {blockId}"
  | compressionNotSupported => "LZ4/zstd wal_compression is not supported by this build"
  | tooMuchMainData len =>
    s!"too much WAL data: main data length is {len} bytes for a maximum of 4294967295"
  | oversizedRecord totalLen rmid info =>
    s!"oversized WAL record: would be {totalLen} bytes (of maximum 1069547520); rmid {rmid} flags {info}"

/-- What the assembly takes from the session: the settings and ids it reads, and the match tables
that earlier compressions left behind. -/
structure Session where
  walCompression : WalCompression
  signed : Bool
  stale : Nat → PglzHistory.Hist
  origin : UInt16
  topXid : Option UInt32
  xid : UInt32

/-- `PGLZ_STRATEGY_DEFAULT`. -/
def pglzStrategyDefault : PglzStrategy where
  minInputSize := 32
  maxInputSize := i32Max
  minCompRate := 25
  firstSuccessBy := 1024
  matchSizeGood := 128
  matchSizeDrop := 10

/-- The page without its hole. -/
def withoutHole (page : List UInt8) (holeOffset holeLength : Nat) : List UInt8 :=
  page.take holeOffset ++ page.drop (holeOffset + holeLength)

/-- `dest` has room for `pglz_max_output(BLCKSZ)` bytes. -/
def compressBackupBlock (signed : Bool) (stale : PglzHistory.Hist) (page : List UInt8)
    (holeOffset holeLength : Nat) : Option (List UInt8) :=
  let origLen := blcksz - holeLength
  let source := if holeLength ≠ 0 then withoutHole page holeOffset holeLength else page
  let extraBytes := if holeLength ≠ 0 then sizeOfXLogRecordBlockCompressHeader else 0
  match pglzCompressInto ⟨signed, source, pglzMaxOutput blcksz, pglzStrategyDefault⟩ stale with
  | .ok comp => if comp.length + extraBytes < origLen then some comp else none
  | .error _ => none

/-- Where the hole of a standard page starts and how long it is. -/
def pageHole (blk : RegBlock) : Nat × Nat :=
  if hasFlag blk.flags regbufStandard then
    let lower := wordAt 2 blk.page 12
    let upper := wordAt 2 blk.page 14
    if sizeOfPageHeaderData ≤ lower ∧ lower < upper ∧ upper ≤ blcksz then (lower, upper - lower)
    else (0, 0)
  else (0, 0)

/-- A full-page image as it goes into the record. -/
structure Image where
  holeOffset : Nat
  holeLength : Nat
  info : UInt8
  compressed : Bool
  data : List UInt8

def makeImage (session : Session) (i : Nat) (blk : RegBlock) (apply : Bool) : Except AssembleError Image :=
  let (holeOffset, holeLength) := pageHole blk
  let info := (if holeLength = 0 then 0 else bkpimageHasHole) ||| (if apply then bkpimageApply else 0)
  let plain : Image := ⟨holeOffset, holeLength, info, false, withoutHole blk.page holeOffset holeLength⟩
  match session.walCompression with
  | .none => .ok plain
  | .pglz =>
    match compressBackupBlock session.signed (session.stale i) blk.page holeOffset holeLength with
    | some comp => .ok ⟨holeOffset, holeLength, info ||| bkpimageCompressPglz, true, comp⟩
    | none => .ok plain
  | .lz4 => .error .compressionNotSupported
  | .zstd => .error .compressionNotSupported

/-- What the loop decides about one block. -/
structure BlockPlan where
  needsData : Bool
  image : Option Image

def RegBlock.rdata (blk : RegBlock) : List UInt8 := blk.bufdata.flatten

def needsData (blk : RegBlock) (backup : Bool) : Bool :=
  if blk.rdata.length = 0 then false
  else if hasFlag blk.flags regbufKeepData then true
  else !backup

/-- The header of an image: length, hole offset, flags, and the hole's length if it cannot be
had from the image's own. -/
def Image.header (image : Image) : List UInt8 :=
  leBytes 2 image.data.length ++ leBytes 2 image.holeOffset ++ [image.info] ++
    if image.holeLength ≠ 0 ∧ image.compressed then leBytes 2 image.holeLength else []

def RelFileLocator.bytes (loc : RelFileLocator) : List UInt8 :=
  leBytes 4 loc.spcOid.toNat ++ leBytes 4 loc.dbOid.toNat ++ leBytes 4 loc.relNumber.toNat

def forkFlags (blk : RegBlock) (plan : BlockPlan) (samerel : Bool) : UInt8 :=
  blk.forknum.toU8 |||
    (if blk.flags &&& regbufWillInit = regbufWillInit then bkpblockWillInit else 0) |||
    (if plan.image.isSome then bkpblockHasImage else 0) |||
    (if plan.needsData then bkpblockHasData else 0) |||
    (if samerel then bkpblockSameRel else 0)

def blockHeader (blk : RegBlock) (plan : BlockPlan) (samerel : Bool) : List UInt8 :=
  [blk.blockId, forkFlags blk plan samerel] ++
    leBytes 2 (if plan.needsData then blk.rdata.length else 0) ++
    (plan.image.elim [] Image.header) ++
    (if samerel then [] else blk.rlocator.bytes) ++
    leBytes 4 blk.block.toNat

/-- The fragments pushed for one block: its image, then its data. -/
def blockData (blk : RegBlock) (plan : BlockPlan) : List UInt8 :=
  (plan.image.elim [] Image.data) ++ if plan.needsData then blk.rdata else []

/-- The variables of the loop over the blocks. -/
structure Acc where
  hdr : List UInt8
  rdatas : List UInt8
  fpwLsn : Nat
  numFpi : Nat
  prevRlocator : Option RelFileLocator
  plans : List BlockPlan

/-- The checks at the head of the loop body. -/
def checkBlock (prev : Option RegBlock) (blk : RegBlock) : Except AssembleError Unit :=
  match prev.filter (fun p => blk.blockId ≤ p.blockId) with
  | some p => .error (.misorderedBlockIds p.blockId blk.blockId)
  | none =>
    if xlrMaxBlockId < blk.blockId.toNat then .error .tooManyRegisteredBuffers
    else if 65535 < blk.rdata.length then .error (.tooMuchBlockData blk.blockId)
    else .ok ()

def planBlock (session : Session) (info : UInt8) (i : Nat) (blk : RegBlock) (backup : Bool) :
    Except AssembleError BlockPlan :=
  if backup || hasFlag info xlrCheckConsistency then do
    let image ← makeImage session i blk backup
    .ok ⟨needsData blk backup, some image⟩
  else .ok ⟨needsData blk backup, none⟩

def assembleBlock (session : Session) (info : UInt8) (redoRecPtr : Nat) (doPageWrites : Bool)
    (i : Nat) (prev : Option RegBlock) (blk : RegBlock) (acc : Acc) : Except AssembleError Acc := do
  checkBlock prev blk
  let (backup, fpwLsn) := needsBackup redoRecPtr doPageWrites blk acc.fpwLsn
  let plan ← planBlock session info i blk backup
  let samerel := acc.prevRlocator == some blk.rlocator
  .ok
    { hdr := acc.hdr ++ blockHeader blk plan samerel
      rdatas := acc.rdatas ++ blockData blk plan
      fpwLsn := fpwLsn
      numFpi := acc.numFpi + if plan.image.isSome then 1 else 0
      prevRlocator := some blk.rlocator
      plans := acc.plans ++ [plan] }

def assembleBlocks (session : Session) (info : UInt8) (redoRecPtr : Nat) (doPageWrites : Bool) :
    Nat → Option RegBlock → List RegBlock → Acc → Except AssembleError Acc
  | _, _, [], acc => .ok acc
  | i, prev, blk :: rest, acc => do
    let acc ← assembleBlock session info redoRecPtr doPageWrites i prev blk acc
    assembleBlocks session info redoRecPtr doPageWrites (i + 1) (some blk) rest acc

def originHeader (session : Session) (recordFlags : UInt8) : List UInt8 :=
  if hasFlag recordFlags xlogIncludeOrigin && session.origin != 0 then
    xlrBlockIdOrigin :: leBytes 2 session.origin.toNat
  else []

def topXidHeader (session : Session) : List UInt8 :=
  session.topXid.elim [] fun xid => xlrBlockIdToplevelXid :: leBytes 4 xid.toNat

def mainHeader (len : Nat) : Except AssembleError (List UInt8) :=
  if 0 < len then
    if 255 < len then
      if 2 ^ 32 - 1 < len then .error (.tooMuchMainData len)
      else .ok (xlrBlockIdDataLong :: leBytes 4 len)
    else .ok [xlrBlockIdDataShort, UInt8.ofNat len]
  else .ok []

/-- One byte of the reflected Castagnoli polynomial, bit by bit. -/
def crcBits : Nat → UInt32 → UInt32
  | 0, crc => crc
  | n + 1, crc => crcBits n (if crc &&& 1 = 1 then (crc >>> 1) ^^^ 0x82F63B78 else crc >>> 1)

def crcByte (crc : UInt32) (b : UInt8) : UInt32 := crcBits 8 (crc ^^^ b.toUInt32)

def pgCompCrc32c (crc : UInt32) (data : List UInt8) : UInt32 := data.foldl crcByte crc

def crc32cInit : UInt32 := 0xFFFFFFFF

def finCrc32c (crc : UInt32) : UInt32 := crc ^^^ 0xFFFFFFFF

/-- The record header; `xl_prev` and the final CRC are filled in at insertion. -/
structure XLogRecord where
  totLen : Nat
  xid : UInt32
  prev : Nat
  info : UInt8
  rmid : UInt8
  crc : UInt32

/-- The first 20 bytes, which the CRC covers last. -/
def XLogRecord.bytes20 (r : XLogRecord) : List UInt8 :=
  leBytes 4 r.totLen ++ leBytes 4 r.xid.toNat ++ leBytes 8 r.prev ++ [r.info, r.rmid, 0, 0]

def XLogRecord.bytes (r : XLogRecord) : List UInt8 := r.bytes20 ++ leBytes 4 r.crc.toNat

/-- An assembled record: its header, the bytes behind it, and what was decided on the way. -/
structure Assembled where
  header : XLogRecord
  body : List UInt8
  hdrLen : Nat
  fpwLsn : Nat
  numFpi : Nat
  topxidIncluded : Bool
  plans : List BlockPlan

def assemble (session : Session) (rmid info : UInt8) (redoRecPtr : Nat) (doPageWrites : Bool)
    (recordFlags : UInt8) (mainData : List (List UInt8)) (blocks : List RegBlock) :
    Except AssembleError Assembled := do
  let acc ← assembleBlocks session info redoRecPtr doPageWrites 0 none blocks
    ⟨[], [], invalidXLogRecPtr, 0, none, []⟩
  let main := mainData.flatten
  let mainHdr ← mainHeader main.length
  let hdr := acc.hdr ++ originHeader session recordFlags ++ topXidHeader session ++ mainHdr
  let body := hdr ++ acc.rdatas ++ main
  let totalLen := sizeOfXLogRecord + body.length
  let crc := pgCompCrc32c crc32cInit body
  if xLogRecordMaxSize < totalLen then
    .error (.oversizedRecord totalLen rmid info)
  else
    .ok
      { header := ⟨totalLen, session.xid, invalidXLogRecPtr, info, rmid, crc⟩
        body := body
        hdrLen := sizeOfXLogRecord + hdr.length
        fpwLsn := acc.fpwLsn
        numFpi := acc.numFpi
        topxidIncluded := session.topXid.isSome
        plans := acc.plans }

variable {blk : RegBlock} {i : Nat}

section Images

variable {session : Session} {info : UInt8} {redo : Nat} {dpw : Bool}

/-- Whether a block gets an image by the rule on page LSNs or by its flags. -/
def backs (redoRecPtr : Nat) (doPageWrites : Bool) (blk : RegBlock) : Bool :=
  (needsBackup redoRecPtr doPageWrites blk invalidXLogRecPtr).1

/-- The block is left without an image only because its page's LSN is above the redo pointer. -/
structure Skipped (redoRecPtr : Nat) (doPageWrites : Bool) (blk : RegBlock) : Prop where
  notForced : hasFlag blk.flags regbufForceImage = false
  allowed : hasFlag blk.flags regbufNoImage = false
  writes : doPageWrites = true
  later : redoRecPtr < pageLsn blk.page

theorem needsBackup_fst (redo : Nat) (dpw) (blk) (fpwLsn : Nat) :
    (needsBackup redo dpw blk fpwLsn).1 = backs redo dpw blk := by
  rw [backs, needsBackup, needsBackup]
  split_ifs <;> rfl

/-- A page write is due for a block that is not exempt, by the redo pointer in force. -/
theorem backs_of_due (hallow : hasFlag blk.flags regbufNoImage = false)
    (hlsn : pageLsn blk.page ≤ redo) : backs redo true blk = true := by
  rw [backs, needsBackup]
  split_ifs with hforce hno
  · rfl
  · rw [hallow] at hno
    cases hno
  · exact decide_eq_true hlsn

/-- `fpw_lsn` is at most the LSN of a skipped block, and is a valid position then. -/
theorem needsBackup_skipped (h : Skipped redo dpw blk) (fpwLsn : Nat) :
    (needsBackup redo dpw blk fpwLsn).2 ≠ invalidXLogRecPtr ∧
      (needsBackup redo dpw blk fpwLsn).2 ≤ pageLsn blk.page := by
  have hpos : pageLsn blk.page ≠ invalidXLogRecPtr := Nat.ne_zero_of_lt h.later
  have hbackup : decide (pageLsn blk.page ≤ redo) = false := decide_eq_false (Nat.not_le.mpr h.later)
  have hgo : (hasFlag blk.flags regbufNoImage || !dpw) = false := by
    rw [h.allowed, h.writes]
    rfl
  rw [needsBackup, h.notForced, if_neg Bool.false_ne_true, hgo, if_neg Bool.false_ne_true]
  simp only [hbackup, Bool.not_false, Bool.true_and]
  split_ifs with hmin
  · exact ⟨hpos, le_rfl⟩
  · rw [Bool.or_eq_true, not_or] at hmin
    refine ⟨?_, ?_⟩
    · intro hzero
      exact hmin.1 (beq_iff_eq.mpr hzero)
    · have hle := hmin.2
      rw [decide_eq_true_eq] at hle
      exact Nat.not_lt.mp hle

/-- `fpw_lsn` only falls once it is valid. -/
theorem needsBackup_keeps (redo : Nat) (dpw) (blk) (h : fpwLsn ≠ invalidXLogRecPtr) :
    (needsBackup redo dpw blk fpwLsn).2 ≠ invalidXLogRecPtr ∧
      (needsBackup redo dpw blk fpwLsn).2 ≤ fpwLsn := by
  have hne : (fpwLsn == invalidXLogRecPtr) = false := beq_eq_false_iff_ne.mpr h
  rw [needsBackup]
  split_ifs with hforce hgo
  · exact ⟨h, le_rfl⟩
  · exact ⟨h, le_rfl⟩
  · simp only [hne, Bool.false_or]
    split_ifs with hmin
    · rw [Bool.and_eq_true, Bool.not_eq_true', decide_eq_false_iff_not, decide_eq_true_eq] at hmin
      exact ⟨Nat.ne_zero_of_lt (Nat.not_le.mp hmin.1), hmin.2.le⟩
    · exact ⟨h, le_rfl⟩

/-- A block with these values under the insertion lock that the assembly with the old ones gave no
image is a skipped one. -/
theorem skipped_of_stale (hnow : backs redo dpw blk = true) (hthen : backs redo₀ dpw₀ blk = false) :
    dpw = true ∧ (dpw₀ = true → Skipped redo₀ dpw₀ blk ∧ pageLsn blk.page ≤ redo) := by
  rw [backs, needsBackup] at hnow hthen
  split_ifs at hthen with hforce hgo₀
  · split_ifs at hnow with hgo
    rw [Bool.or_eq_true, not_or] at hgo
    rw [Bool.or_eq_true] at hgo₀
    have hdpw : dpw = true := by
      cases dpw with
      | true => rfl
      | false => exact absurd rfl hgo.2
    refine ⟨hdpw, ?_⟩
    intro hwrites
    rw [hwrites] at hgo₀
    exact absurd (hgo₀.resolve_right Bool.false_ne_true) hgo.1
  · split_ifs at hnow with hgo
    rw [Bool.or_eq_true, not_or] at hgo hgo₀
    have hdpw : dpw = true := by
      cases dpw with
      | true => rfl
      | false => exact absurd rfl hgo.2
    refine ⟨hdpw, ?_⟩
    intro hwrites
    exact ⟨⟨Bool.eq_false_iff.mpr hforce, Bool.eq_false_iff.mpr hgo.1, hwrites,
      Nat.not_le.mp (of_decide_eq_false hthen)⟩, of_decide_eq_true hnow⟩

/-- The image decision of one block of the assembled record. -/
def Planned (info : UInt8) (redo : Nat) (dpw : Bool) (blk : RegBlock) (plan : BlockPlan) : Prop :=
  plan.image.isSome = (backs redo dpw blk || hasFlag info xlrCheckConsistency)

theorem planBlock_planned (h : planBlock session info i blk (backs redo dpw blk) = .ok plan) :
    Planned info redo dpw blk plan := by
  rw [planBlock] at h
  rw [Planned]
  by_cases himage : (backs redo dpw blk || hasFlag info xlrCheckConsistency) = true
  · rw [if_pos himage] at h
    rw [himage]
    cases hmake : makeImage session i blk (backs redo dpw blk) with
    | error =>
      rw [hmake] at h
      cases h
    | ok =>
      rw [hmake] at h
      cases h
      rfl
  · rw [if_neg himage] at h
    rw [Bool.not_eq_true] at himage
    rw [himage]
    cases h
    rfl

theorem bind_eq_ok {ε α β : Type} {x : Except ε α} {f : α → Except ε β} {b : β} (h : (x >>= f) = .ok b) :
    ∃ a, x = .ok a ∧ f a = .ok b := by
  cases x with
  | error => cases h
  | ok a => exact ⟨a, rfl, h⟩

/-- What one turn of the loop adds. -/
theorem assembleBlock_ok {prev : Option RegBlock} {acc acc' : Acc}
    (h : assembleBlock session info redo dpw i prev blk acc = .ok acc') :
    ∃ plan, planBlock session info i blk (backs redo dpw blk) = .ok plan ∧
      acc' =
        { hdr := acc.hdr ++ blockHeader blk plan (acc.prevRlocator == some blk.rlocator)
          rdatas := acc.rdatas ++ blockData blk plan
          fpwLsn := (needsBackup redo dpw blk acc.fpwLsn).2
          numFpi := acc.numFpi + if plan.image.isSome then 1 else 0
          prevRlocator := some blk.rlocator
          plans := acc.plans ++ [plan] } := by
  rw [← needsBackup_fst redo dpw blk acc.fpwLsn]
  obtain ⟨_, -, h⟩ := bind_eq_ok h
  obtain ⟨plan, hplan, h⟩ := bind_eq_ok h
  exact ⟨plan, hplan, (Except.ok.inj h).symm⟩

/-- The plans of the loop are the decisions for its blocks, and its `fpw_lsn` bounds the LSN of
every skipped block. -/
theorem assembleBlocks_images {blocks : List RegBlock} {prev : Option RegBlock} {acc acc' : Acc}
    (h : assembleBlocks session info redo dpw i prev blocks acc = .ok acc') :
    (∃ plans, acc'.plans = acc.plans ++ plans ∧ List.Forall₂ (Planned info redo dpw) blocks plans) ∧
      (∀ lsn, acc.fpwLsn ≠ invalidXLogRecPtr → acc.fpwLsn ≤ lsn →
        acc'.fpwLsn ≠ invalidXLogRecPtr ∧ acc'.fpwLsn ≤ lsn) ∧
      ∀ blk ∈ blocks, Skipped redo dpw blk →
        acc'.fpwLsn ≠ invalidXLogRecPtr ∧ acc'.fpwLsn ≤ pageLsn blk.page := by
  induction blocks generalizing i prev acc with
  | nil =>
    cases h
    refine ⟨⟨[], (List.append_nil _).symm, .nil⟩, ?_, ?_⟩
    · intro lsn hne hle
      exact ⟨hne, hle⟩
    · nofun
  | cons blk rest ih =>
    obtain ⟨mid, hone, h⟩ := bind_eq_ok h
    obtain ⟨plan, hplan, rfl⟩ := assembleBlock_ok hone
    obtain ⟨⟨plans, hplans, hall⟩, hkeep, hskip⟩ := ih h
    refine ⟨⟨plan :: plans, ?_, .cons (planBlock_planned hplan) hall⟩, ?_, ?_⟩
    · rw [hplans, List.append_assoc]
      rfl
    · intro lsn hne hle
      have hone := needsBackup_keeps redo dpw blk hne
      exact hkeep lsn hone.1 (hone.2.trans hle)
    · intro b hb hskipped
      cases hb with
      | head =>
        have hone := needsBackup_skipped hskipped acc.fpwLsn
        exact hkeep _ hone.1 hone.2
      | tail _ hb => exact hskip b hb hskipped

section Record

variable {rmid recordFlags : UInt8} {mainData : List (List UInt8)} {blocks : List RegBlock}

/-- The record is the loop's, behind a header. -/
theorem assemble_ok (h : assemble session rmid info redo dpw recordFlags mainData blocks = .ok asm) :
    ∃ acc, assembleBlocks session info redo dpw 0 none blocks ⟨[], [], invalidXLogRecPtr, 0, none, []⟩ = .ok acc ∧
      asm.plans = acc.plans ∧ asm.fpwLsn = acc.fpwLsn ∧ 0 < asm.header.totLen := by
  obtain ⟨acc, hloop, h⟩ := bind_eq_ok h
  obtain ⟨mainHdr, -, h⟩ := bind_eq_ok h
  simp only at h
  split_ifs at h
  rw [← Except.ok.inj h]
  exact ⟨acc, hloop, rfl, rfl, Nat.add_pos_left (by decide) _⟩

/-- The assembled record follows the decisions, block by block, and its `fpw_lsn` bounds the LSN of
every skipped block. -/
theorem assemble_images (h : assemble session rmid info redo dpw recordFlags mainData blocks = .ok asm) :
    List.Forall₂ (Planned info redo dpw) blocks asm.plans ∧
      ∀ blk ∈ blocks, Skipped redo dpw blk →
        asm.fpwLsn ≠ invalidXLogRecPtr ∧ asm.fpwLsn ≤ pageLsn blk.page := by
  obtain ⟨acc, hloop, heq, hlsn, -⟩ := assemble_ok h
  obtain ⟨⟨plans, hplans, hall⟩, -, hskip⟩ := assembleBlocks_images hloop
  rw [heq, hplans, hlsn]
  exact ⟨hall, hskip⟩

end Record

end Images

end XLogAssemble
