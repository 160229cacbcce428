import Pgrust.ByteCursor
import Pgrust.ColumnarSealing

/-!
# The header and the footer of a part

The footer `finish` writes and `read_footer_rgs` parses, section by section. Old
format versions lack the later sections. A file is its logical byte stream.
-/
namespace ColumnarFooter

open ByteImage ByteCursor ColumnarFormat ColumnarAppend ColumnarSealing List

def cbMagic : Nat := 0x636273746f726531
def cbVersion : Nat := 8
def cbFooterMagic : Nat := 0x43424654
def cbClusterKeyMaxCols : Nat := 8
def cbClusterKeySectionLen : Nat := 2 + cbClusterKeyMaxCols * 2

/-- One table step of CRC-32C. -/
def crc32cTable (i : BitVec 32) : BitVec 32 :=
  (List.range 8).foldl (fun c _ => (c >>> 1) ^^^ (0x82F63B78#32 &&& (0#32 - (c &&& 1#32)))) i

def crc32c (bytes : List UInt8) : BitVec 32 :=
  ~~~(bytes.foldl (fun crc b =>
    (crc >>> 8) ^^^ crc32cTable ((crc ^^^ BitVec.ofNat 32 b.toNat) &&& 0xff#32)) (~~~0#32))

structure FooterRg where
  fileOff : Nat
  nrows : Nat
  xmin : Nat
  flags : Nat
  /-- Per column: offset in the row group, minimum, maximum. -/
  chunks : List (Nat × I64 × I64)
  sums : List Int
  lenstats : List (Nat × Nat × Nat)
  zerocnt : List Nat
  deriving DecidableEq, Repr

structure Footer where
  rgs : List FooterRg
  ndv : List Nat
  sorted : List UInt8
  clusterKey : List Nat
  lenflags : List UInt8
  gndv : List Nat
  stitchDir : List (Nat × Nat)
  ndvregs : List (Nat × Nat)
  deriving DecidableEq, Repr

def putI128 (v : Int) : List UInt8 := leBytes 16 (BitVec.ofInt 128 v).toNat

def i128OfLe (b : List UInt8) : Int := (BitVec.ofNat 128 (leNat b)).toInt

def rgDirEntry (rg : FooterRg) : List UInt8 :=
  putU64 rg.fileOff ++ (putU32 rg.nrows ++ (putU32 rg.xmin ++ (putU32 rg.flags ++ putU32 0)))

def chunkEntry (e : Nat × I64 × I64) : List UInt8 := putU64 e.1 ++ (putI64 e.2.1 ++ putI64 e.2.2)

def lenstatEntry (e : Nat × Nat × Nat) : List UInt8 := putU64 e.1 ++ (putU32 e.2.1 ++ putU32 e.2.2)

def blobEntry (e : Nat × Nat) : List UInt8 := putU64 e.1 ++ putU32 e.2

/-- Slots past the key are zero. -/
def clusterKeySection (key : List Nat) : List UInt8 :=
  putU16 key.length ++ ((List.range cbClusterKeyMaxCols).map (fun k => putU16 (key.getD k 0))).flatten

/-- The sections in the order of the file. What a row group does not carry is
written as zeros. -/
def footerSections (ncols nlencols : Nat) (f : Footer) : List (List UInt8) :=
  [putU32 f.rgs.length, putU32 ncols, f.lenflags, (f.rgs.map rgDirEntry).flatten,
    (f.rgs.map (fun rg => (rg.chunks.map chunkEntry).flatten)).flatten,
    (f.ndv.map putU64).flatten,
    (f.rgs.map (fun rg => ((List.range ncols).map (fun c => putI128 (rg.sums.getD c 0))).flatten)).flatten,
    f.sorted,
    clusterKeySection f.clusterKey,
    (f.rgs.map (fun rg => ((List.range (granulesPerRg * nlencols)).map (fun s =>
      lenstatEntry (rg.lenstats.getD s (0, 0, 0)))).flatten)).flatten,
    (f.gndv.map putU64).flatten,
    (f.stitchDir.map blobEntry).flatten,
    (f.rgs.map (fun rg => ((List.range (granulesPerRg * ncols)).map (fun s =>
      putU32 (rg.zerocnt.getD s 0))).flatten)).flatten,
    (f.ndvregs.map blobEntry).flatten]

def footerTail (body : List UInt8) : List UInt8 :=
  putU64 (body.length + 16) ++ (putU32 (crc32c body).toNat ++ putU32 cbFooterMagic)

def footerBytes (ncols nlencols : Nat) (f : Footer) : List UInt8 :=
  let body := (footerSections ncols nlencols f).flatten
  body ++ footerTail body

/-- The closed-form length of a footer body with its tail. -/
def footerLen (version nrgs ncols nlencols : Nat) : Nat :=
  (if 7 ≤ version then 8 + ncols else 8) + nrgs * 24 + nrgs * ncols * 24 +
    (if 2 ≤ version then ncols * 8 else 0) + (if 4 ≤ version then nrgs * ncols * 16 else 0) +
    (if 5 ≤ version then ncols else 0) + (if 6 ≤ version then cbClusterKeySectionLen else 0) +
    nrgs * granulesPerRg * nlencols * 16 +
    (if 7 ≤ version then ncols * 8 + nrgs * ncols * 12 else 0) +
    (if 7 ≤ version then nrgs * granulesPerRg * ncols * 4 else 0) +
    (if 8 ≤ version then ncols * 12 else 0) + 16

def readI64 : Cursor I64 := do
  let m ← bytes 8
  pure (i64OfLe m)

def readI128 : Cursor Int := do
  let m ← bytes 16
  pure (i128OfLe m)

def readRgDir : Cursor FooterRg := do
  let fileOff ← word 8
  let nrows ← word 4
  let xmin ← word 4
  let flags ← word 4
  let _ ← word 4
  pure ⟨fileOff, nrows, xmin, flags, [], [], [], []⟩

def readChunk : Cursor (Nat × I64 × I64) := do
  let off ← word 8
  let lo ← readI64
  let hi ← readI64
  pure (off, lo, hi)

def readLenstat : Cursor (Nat × Nat × Nat) := do
  let s ← word 8
  let n ← word 4
  let e ← word 4
  pure (s, n, e)

def readBlobEntry : Cursor (Nat × Nat) := do
  let off ← word 8
  let n ← word 4
  pure (off, n)

/-- The key columns, or nothing where there are too many of them. -/
def readClusterKey : Cursor (Option (List Nat)) := do
  let nkeys ← word 2
  let slots ← many (word 2) cbClusterKeyMaxCols
  pure (if cbClusterKeyMaxCols < nkeys then none else some (slots.take nkeys))

/-- The row groups put together from their sections. -/
def assembleRgs (dirs : List FooterRg) (chunks : List (List (Nat × I64 × I64))) (sums : List (List Int))
    (lenstats : List (List (Nat × Nat × Nat))) (zerocnt : List (List Nat)) : List FooterRg :=
  dirs.mapIdx (fun i rg =>
    { rg with
      chunks := chunks.getD i []
      sums := sums.getD i []
      lenstats := if rg.flags &&& rgFlagLenstats ≠ 0 then lenstats.getD i [] else []
      zerocnt := zerocnt.getD i [] })

/-- The sections of a footer, in order, as the writer's reopen reads them. -/
def readSections (nrgs ncols version : Nat) : Cursor (Option Footer) := do
  let _ ← word 4
  let _ ← word 4
  let lenflags ← section? (7 ≤ version) (List.replicate ncols 0) (bytes ncols)
  let nlencols := lenflags.countP (· ≠ 0)
  let dirs ← many readRgDir nrgs
  let chunks ← many (many readChunk ncols) nrgs
  let ndv ← section? (2 ≤ version) [] (many (word 8) ncols)
  let sums ← section? (4 ≤ version) [] (many (many readI128 ncols) nrgs)
  let sorted ← section? (5 ≤ version) (List.replicate ncols 0) (bytes ncols)
  let key ← section? (6 ≤ version) (some []) readClusterKey
  let lenstats ← section? (7 ≤ version) [] (many (many readLenstat (granulesPerRg * nlencols)) nrgs)
  let gndv ← section? (7 ≤ version) [] (many (word 8) ncols)
  let dir ← section? (7 ≤ version) [] (many readBlobEntry (nrgs * ncols))
  let zerocnt ← section? (7 ≤ version) [] (many (many (word 4) (granulesPerRg * ncols)) nrgs)
  let ndvregs ← section? (8 ≤ version) [] (many readBlobEntry ncols)
  pure (key.map (fun key =>
    { rgs := assembleRgs dirs chunks sums lenstats zerocnt
      ndv := ndv
      sorted := sorted
      clusterKey := key
      lenflags := lenflags
      gndv := gndv
      stitchDir := dir
      ndvregs := ndvregs }))

def corrupt (message : String) : Stop := raise message .internalError

/-- `parse_footer_checked` on a buffer of the closed-form length; a lazy read does
not check the CRC. -/
def parseFooterChecked (buf : List UInt8) (nrgs ncols version : Nat) (checkCrc : Bool) : Run Footer := do
  let tail := buf.length - 16
  let magic ← orPanic (getU32 buf (tail + 12))
  let len ← orPanic (getU64 buf tail)
  let crc ← orPanic (getU32 buf (tail + 8))
  if magic ≠ cbFooterMagic ∨ len ≠ buf.length ∨ (checkCrc ∧ crc ≠ (crc32c (buf.take tail)).toNat) then
    .error (corrupt "cbstore: corrupt footer")
  else do
    let (f, _) ← orPanic (readSections nrgs ncols version (buf.take tail))
    match f with
    | none => .error (corrupt "cbstore: corrupt footer")
    | some f => .ok f

def readExactAt (file : List UInt8) (off len : Nat) : Run (List UInt8) :=
  match slice file off len with
  | some m => .ok m
  | none => .error (corrupt "cbstore io error: failed to fill whole buffer")

/-- `read_footer_rgs`: the footer and the offset behind it. -/
def readFooterRgs (file : List UInt8) (footerOff ncols version : Nat) (checkCrc : Bool) : Run (Footer × Nat) := do
  let preLen := if 7 ≤ version then 8 + ncols else 8
  if footerOff < cbHeaderLen ∨ file.length < footerOff + preLen then
    .error (corrupt "cbstore: corrupt part (footer offset out of bounds)")
  else do
    let fixed ← readExactAt file footerOff preLen
    let nrgs ← orPanic (getU32 fixed 0)
    let fncols ← orPanic (getU32 fixed 4)
    if fncols ≠ ncols then .error (corrupt "cbstore: footer ncols mismatch")
    else do
      let nlencols := (fixed.drop 8).countP (· ≠ 0)
      let bodyLen := footerLen version nrgs ncols nlencols
      if file.length - footerOff < bodyLen then
        .error (corrupt "cbstore: corrupt part (footer body out of bounds)")
      else do
        let buf ← readExactAt file footerOff bodyLen
        let f ← parseFooterChecked buf nrgs ncols version checkCrc
        .ok (f, footerOff + bodyLen)

def headerBytes (ncols footerOff fingerprint : Nat) : List UInt8 :=
  padTo 64 (putU64 cbMagic ++ putU32 cbVersion ++ putU32 ncols ++ putU64 footerOff ++ putU64 fingerprint)

/-- `read_header_opt`: footer offset, fingerprint and version; an all-zero page is no
header. -/
def readHeaderOpt (hdr : List UInt8) : Run (Option (Nat × Nat × Nat)) :=
  if hdr.all (· = 0) then .ok none
  else do
    let magic ← orPanic (getU64 hdr 0)
    let version ← orPanic (getU32 hdr 8)
    let footerOff ← orPanic (getU64 hdr 16)
    let fingerprint ← orPanic (getU64 hdr 24)
    if magic ≠ cbMagic ∨ version < 1 ∨ cbVersion < version then
      .error (corrupt "cbstore: bad part header")
    else .ok (some (footerOff, fingerprint, version))

/-- The footer's words hold what the writer puts into them. -/
structure FooterRg.Fits (ncols : Nat) (rg : FooterRg) : Prop where
  fileOff : rg.fileOff < 2 ^ 64
  nrows : rg.nrows < 2 ^ 32
  xmin : rg.xmin < 2 ^ 32
  flags : rg.flags < 2 ^ 32
  chunks : rg.chunks.length = ncols
  chunkOff : ∀ e ∈ rg.chunks, e.1 < 2 ^ 64
  sum : ∀ v ∈ rg.sums, -2 ^ 127 ≤ v ∧ v < 2 ^ 127
  lenstat : ∀ e ∈ rg.lenstats, e.1 < 2 ^ 64 ∧ e.2.1 < 2 ^ 32 ∧ e.2.2 < 2 ^ 32
  zeros : ∀ n ∈ rg.zerocnt, n < 2 ^ 32

structure Footer.Fits (ncols nlencols : Nat) (f : Footer) : Prop where
  count : f.rgs.length < 2 ^ 32
  columns : ncols < 2 ^ 32
  rgs : ∀ rg ∈ f.rgs, rg.Fits ncols
  ndv : f.ndv.length = ncols
  ndvs : ∀ n ∈ f.ndv, n < 2 ^ 64
  sorted : f.sorted.length = ncols
  key : f.clusterKey.length ≤ cbClusterKeyMaxCols
  keys : ∀ k ∈ f.clusterKey, k < 2 ^ 16
  lenflags : f.lenflags.length = ncols
  lencols : f.lenflags.countP (· ≠ 0) = nlencols
  gndv : f.gndv.length = ncols
  gndvs : ∀ n ∈ f.gndv, n < 2 ^ 64
  stitchDir : f.stitchDir.length = f.rgs.length * ncols
  stitch : ∀ e ∈ f.stitchDir, e.1 < 2 ^ 64 ∧ e.2 < 2 ^ 32
  ndvregs : f.ndvregs.length = ncols
  ndvreg : ∀ e ∈ f.ndvregs, e.1 < 2 ^ 64 ∧ e.2 < 2 ^ 32

/-- The first `n` entries of `l`, and `d` where it has none. -/
def slots {α : Type} (n : Nat) (d : α) (l : List α) : List α := (List.range n).map (fun i => l.getD i d)

variable {α : Type} {n ncols : Nat} {rg : FooterRg}

theorem mem_slots (h : v ∈ slots n d l) : v ∈ l ∨ v = d := by
  obtain ⟨i, -, rfl⟩ := mem_map.mp h
  by_cases hi : i < l.length
  · rw [getD_eq_getElem _ _ hi]
    exact .inl (getElem_mem hi)
  · exact .inr (getD_eq_default _ _ (Nat.le_of_not_lt hi))

section RoundTrip

variable {ncols nlencols : Nat} {f : Footer}

end RoundTrip

end ColumnarFooter
