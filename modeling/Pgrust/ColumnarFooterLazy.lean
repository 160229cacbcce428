import Pgrust.ColumnarWriter

/-!
# The sectioned footer read

A scan opens a part by reading only the sections it keeps: the prelude with the
directories, the sorted flags and the cluster key, the stitch directory, and the
register directory with the tail. Sums, length statistics and zero counts stay in
the file and are read where closed-form offsets put them. Both ways give the values
of the whole parse, for every version of the format.
-/
namespace ColumnarFooterLazy

open ByteImage ByteCursor ColumnarFormat ColumnarAppend ColumnarSealing ColumnarFooter ColumnarWriter List Option

/-- The section lengths that need no flag count. -/
structure FooterLayout where
  preLen : Nat
  ndvLen : Nat
  sumsLen : Nat
  sortedLen : Nat
  ckeyLen : Nat
  deriving DecidableEq, Repr

def footerLayout (version nrgs ncols : Nat) : FooterLayout where
  preLen := if 7 ≤ version then 8 + ncols else 8
  ndvLen := if 2 ≤ version then ncols * 8 else 0
  sumsLen := if 4 ≤ version then nrgs * ncols * 16 else 0
  sortedLen := if 5 ≤ version then ncols else 0
  ckeyLen := if 6 ≤ version then cbClusterKeySectionLen else 0

namespace FooterLayout

def lenstatsOff (lay : FooterLayout) (nrgs ncols : Nat) : Nat :=
  lay.preLen + nrgs * 24 + nrgs * ncols * 24 + lay.ndvLen + lay.sumsLen + lay.sortedLen + lay.ckeyLen

def lenstatsLen (_ : FooterLayout) (nrgs nlencols : Nat) : Nat := nrgs * granulesPerRg * nlencols * 16

def stitchOff (lay : FooterLayout) (nrgs ncols nlencols : Nat) : Nat :=
  lay.lenstatsOff nrgs ncols + lay.lenstatsLen nrgs nlencols

def stitchLen (_ : FooterLayout) (nrgs ncols version : Nat) : Nat :=
  if 7 ≤ version then ncols * 8 + nrgs * ncols * 12 else 0

def zerocntOff (lay : FooterLayout) (nrgs ncols nlencols version : Nat) : Nat :=
  lay.stitchOff nrgs ncols nlencols + lay.stitchLen nrgs ncols version

def zerocntLen (_ : FooterLayout) (nrgs ncols version : Nat) : Nat :=
  if 7 ≤ version then nrgs * granulesPerRg * ncols * 4 else 0

def ndvregsLen (_ : FooterLayout) (ncols version : Nat) : Nat := if 8 ≤ version then ncols * 12 else 0

def bodyLen (lay : FooterLayout) (nrgs ncols nlencols version : Nat) : Nat :=
  lay.zerocntOff nrgs ncols nlencols version + lay.zerocntLen nrgs ncols version + lay.ndvregsLen ncols version + 16

/-- The footer-relative ranges a sectioned read fetches. -/
def ranges (lay : FooterLayout) (nrgs ncols nlencols version : Nat) : List (Nat × Nat) :=
  let prefixEnd := lay.preLen + nrgs * 24 + nrgs * ncols * 24 + lay.ndvLen
  let sortedOff := prefixEnd + lay.sumsLen
  let stitchOff := lay.stitchOff nrgs ncols nlencols
  let bodyLen := lay.bodyLen nrgs ncols nlencols version
  [(0, prefixEnd), (sortedOff, sortedOff + lay.sortedLen + lay.ckeyLen),
    (stitchOff, stitchOff + lay.stitchLen nrgs ncols version),
    (bodyLen - 16 - lay.ndvregsLen ncols version, bodyLen)]

end FooterLayout

open FooterLayout

/-- The sections as a sectioned read parses them: what it did not fetch is passed over. -/
def readSectionsLazy (nrgs ncols version : Nat) : Cursor (Option Footer) := do
  let _ ← word 4
  let _ ← word 4
  let lenflags ← section? (7 ≤ version) (List.replicate ncols 0) (bytes ncols)
  let nlencols := lenflags.countP (· ≠ 0)
  let dirs ← many readRgDir nrgs
  let chunks ← many (many readChunk ncols) nrgs
  let ndv ← section? (2 ≤ version) [] (many (word 8) ncols)
  let _ ← section? (4 ≤ version) () (skip (nrgs * ncols * 16))
  let sorted ← section? (5 ≤ version) (List.replicate ncols 0) (bytes ncols)
  let key ← section? (6 ≤ version) (some []) readClusterKey
  let _ ← section? (7 ≤ version) () (skip (nrgs * granulesPerRg * nlencols * 16))
  let gndv ← section? (7 ≤ version) [] (many (word 8) ncols)
  let dir ← section? (7 ≤ version) [] (many readBlobEntry (nrgs * ncols))
  let _ ← section? (7 ≤ version) () (skip (nrgs * granulesPerRg * ncols * 4))
  let ndvregs ← section? (8 ≤ version) [] (many readBlobEntry ncols)
  pure (key.map (fun key =>
    { rgs := assembleRgs dirs chunks [] [] []
      ndv := ndv
      sorted := sorted
      clusterKey := key
      lenflags := lenflags
      gndv := gndv
      stitchDir := dir
      ndvregs := ndvregs }))

/-- `parse_footer_checked` without the sums; the CRC covers bytes that were not read. -/
def parseFooterLazy (buf : List UInt8) (nrgs ncols version : Nat) (checkCrc : Bool) : Run Footer := do
  let tail := buf.length - 16
  let magic ← orPanic (getU32 buf (tail + 12))
  let len ← orPanic (getU64 buf tail)
  let crc ← orPanic (getU32 buf (tail + 8))
  if magic ≠ cbFooterMagic ∨ len ≠ buf.length ∨ (checkCrc ∧ crc ≠ (crc32c (buf.take tail)).toNat) then
    .error (corrupt "cbstore: corrupt footer")
  else do
    let (f, _) ← orPanic (readSectionsLazy nrgs ncols version (buf.take tail))
    match f with
    | none => .error (corrupt "cbstore: corrupt footer")
    | some f => .ok f

/-- One range of the file into its place of the buffer. -/
def fetch (file : List UInt8) (footerOff : Nat) (buf : List UInt8) (r : Nat × Nat) : Run (List UInt8) :=
  if r.1 < r.2 then do
    let m ← readExactAt file (footerOff + r.1) (r.2 - r.1)
    .ok (overwrite buf r.1 m)
  else .ok buf

/-- The buffer of a footer read; sections that are not fetched stay zero. -/
def footerBuffer (eager : Bool) (file : List UInt8) (footerOff bodyLen : Nat)
    (ranges : List (Nat × Nat)) : Run (List UInt8) :=
  if eager then readExactAt file footerOff bodyLen
  else List.foldlM (fetch file footerOff) (List.replicate bodyLen 0) ranges

/-- `read_footer_rgs` for a scan, sectioned or, under `eager`, of the whole body. -/
def readFooterLazy (eager : Bool) (file : List UInt8) (footerOff ncols version : Nat) : Run (Footer × Nat) := do
  let preLen := if 7 ≤ version then 8 + ncols else 8
  if footerOff < cbHeaderLen ∨ file.length < footerOff + preLen then
    .error (corrupt "cbstore: corrupt part (footer offset out of bounds)")
  else do
    let fixed ← readExactAt file footerOff preLen
    let nrgs ← orPanic (getU32 fixed 0)
    let fncols ← orPanic (getU32 fixed 4)
    if fncols ≠ ncols then .error (corrupt "cbstore: footer ncols mismatch")
    else do
      let lay := footerLayout version nrgs ncols
      let nlencols := (fixed.drop 8).countP (· ≠ 0)
      let bodyLen := lay.bodyLen nrgs ncols nlencols version
      if file.length - footerOff < bodyLen then
        .error (corrupt "cbstore: corrupt part (footer body out of bounds)")
      else do
        let buf ← footerBuffer eager file footerOff bodyLen (lay.ranges nrgs ncols nlencols version)
        let f ← parseFooterLazy buf nrgs ncols version eager
        .ok (f, footerOff + bodyLen)

/-- The dense rank of each flagged column. -/
def lenrankFrom : Nat → List UInt8 → List (Option Nat)
  | _, [] => []
  | r, f :: flags => if f ≠ 0 then some r :: lenrankFrom (r + 1) flags else none :: lenrankFrom r flags

/-- An open part: the mapped bytes, what the footer read kept, and where the sections
it left in the file start (0 for none). -/
structure Part where
  bytes : List UInt8
  footer : Footer
  ncols : Nat
  footerOff : Nat
  sumsOff : Nat
  lenstatsOff : Nat
  lenrank : List (Option Nat)
  nlencols : Nat
  zerocntOff : Nat

def Part.ofFooter (file : List UInt8) (footerOff ncols version : Nat) (f : Footer) : Part :=
  let nrgs := f.rgs.length
  let lay := footerLayout version nrgs ncols
  let nlencols := f.lenflags.countP (· ≠ 0)
  { bytes := file
    footer := f
    ncols := ncols
    footerOff := footerOff
    sumsOff := if 4 ≤ version then footerOff + (lay.preLen + nrgs * 24 + nrgs * ncols * 24 + lay.ndvLen) else 0
    lenstatsOff := if 7 ≤ version ∧ 0 < nlencols then footerOff + lay.lenstatsOff nrgs ncols else 0
    lenrank := lenrankFrom 0 f.lenflags
    nlencols := nlencols
    zerocntOff := if 7 ≤ version then footerOff + lay.zerocntOff nrgs ncols nlencols version else 0 }

/-- `Part::open`; `none` is an empty table. A row group past the mapping is torn state. -/
def openPart (eager : Bool) (file : List UInt8) (ncols : Nat) : Run (Option Part) :=
  if file.length < cbHeaderLen then .ok none
  else do
    let hdr ← readExactAt file 0 cbHeaderLen
    match ← readHeaderOpt hdr with
    | none => .ok none
    | some (footerOff, _, version) =>
      if footerOff = 0 then .ok none
      else do
        let (f, _) ← readFooterLazy eager file footerOff ncols version
        if f.rgs.any (fun rg => file.length < rg.fileOff + cbRgHeaderLen) then
          .error (corrupt "cbstore: corrupt part (row group out of bounds)")
        else .ok (some (Part.ofFooter file footerOff ncols version f))

namespace Part

def rgSum (p : Part) (rg col : Nat) : Option Int :=
  (slice p.bytes (p.sumsOff + (rg * p.ncols + col) * 16) 16).map i128OfLe

/-- The inner `none` is a row group or column without statistics. -/
def granuleLenStats (p : Part) (rg g col : Nat) : Option (Option (Nat × Nat × Nat)) :=
  if p.lenstatsOff = 0 then some none
  else do
    let r ← p.footer.rgs[rg]?
    if r.flags &&& rgFlagLenstats = 0 then some none
    else
      match p.lenrank[col]? with
      | some (some rank) => do
        let e := p.lenstatsOff + ((rg * granulesPerRg + g) * p.nlencols + rank) * 16
        some (some (← getU64 p.bytes e, ← getU32 p.bytes (e + 8), ← getU32 p.bytes (e + 12)))
      | _ => some none

def granuleZerocnt (p : Part) (rg g col : Nat) : Option Nat :=
  getU32 p.bytes (p.zerocntOff + ((rg * granulesPerRg + g) * p.ncols + col) * 4)

end Part

/-- A footer whose statistics were left in the file. -/
def withoutStats (f : Footer) : Footer :=
  { f with rgs := f.rgs.map (fun rg => { rg with sums := [], lenstats := [], zerocnt := [] }) }

/-- An open part hands out what a parse of the whole footer holds. -/
def Serves (p : Part) (version : Nat) (f : Footer) : Prop :=
  p.footer = withoutStats f ∧ ∀ i rg, f.rgs[i]? = some rg →
      (4 ≤ version → ∀ c, c < p.ncols → p.rgSum i c = rg.sums[c]?) ∧
      (7 ≤ version → ∀ g c, g < granulesPerRg → c < p.ncols →
        p.granuleZerocnt i g c = rg.zerocnt[g * p.ncols + c]?) ∧
      ∀ g c, g < granulesPerRg → p.granuleLenStats i g c =
        some ((p.lenrank.getD c none).bind (fun rank => rg.lenstats[g * p.nlencols + rank]?))

variable {m tail : List UInt8} {nrgs version ncols nlencols : Nat}

section Pieces

variable {version nrgs ncols nlencols : Nat}

/-- The sections of a footer body, by the lengths of the layout. -/
structure Pieces (version nrgs ncols nlencols : Nat) where
  counts : List UInt8
  lenflags : List UInt8
  dirs : List UInt8
  chunks : List UInt8
  ndv : List UInt8
  sums : List UInt8
  sorted : List UInt8
  key : List UInt8
  lenstats : List UInt8
  gndv : List UInt8
  stitchDir : List UInt8
  zerocnt : List UInt8
  ndvregs : List UInt8
  counts_length : counts.length = 4 + 4
  lenflags_length : lenflags.length = if 7 ≤ version then ncols else 0
  dirs_length : dirs.length = nrgs * 24
  chunks_length : chunks.length = nrgs * (ncols * 24)
  ndv_length : ndv.length = if 2 ≤ version then ncols * 8 else 0
  sums_length : sums.length = if 4 ≤ version then nrgs * (ncols * 16) else 0
  sorted_length : sorted.length = if 5 ≤ version then ncols else 0
  key_length : key.length = if 6 ≤ version then cbClusterKeySectionLen else 0
  lenstats_length : lenstats.length = if 7 ≤ version then nrgs * (granulesPerRg * nlencols * 16) else 0
  gndv_length : gndv.length = if 7 ≤ version then ncols * 8 else 0
  stitchDir_length : stitchDir.length = if 7 ≤ version then nrgs * ncols * 12 else 0
  zerocnt_length : zerocnt.length = if 7 ≤ version then nrgs * (granulesPerRg * ncols * 4) else 0
  ndvregs_length : ndvregs.length = if 8 ≤ version then ncols * 12 else 0

namespace Pieces

attribute [simp] counts_length lenflags_length dirs_length chunks_length ndv_length sums_length sorted_length
  key_length lenstats_length gndv_length stitchDir_length zerocnt_length ndvregs_length

/-- The prelude and the directories. -/
def front (p : Pieces version nrgs ncols nlencols) : List UInt8 :=
  p.counts ++ (p.lenflags ++ (p.dirs ++ (p.chunks ++ p.ndv)))

def bytes (p : Pieces version nrgs ncols nlencols) : List UInt8 :=
  p.counts ++ (p.lenflags ++ (p.dirs ++ (p.chunks ++ (p.ndv ++ (p.sums ++ (p.sorted ++ (p.key ++
    (p.lenstats ++ (p.gndv ++ (p.stitchDir ++ (p.zerocnt ++ p.ndvregs)))))))))))

end Pieces

/-- The values of the sections. -/
structure Values where
  lenflags : List UInt8
  dirs : List FooterRg
  chunks : List (List (Nat × I64 × I64))
  ndv : List Nat
  sorted : List UInt8
  key : Option (List Nat)
  gndv : List Nat
  stitchDir : List (Nat × Nat)
  ndvregs : List (Nat × Nat)

/-- The statistics a sectioned read leaves in the file. -/
structure Stats where
  sums : List (List Int)
  lenstats : List (List (Nat × Nat × Nat))
  zerocnt : List (List Nat)

def Values.footer (v : Values) (st : Stats) : Option Footer :=
  v.key.map (fun key =>
    { rgs := assembleRgs v.dirs v.chunks st.sums st.lenstats st.zerocnt
      ndv := v.ndv
      sorted := v.sorted
      clusterKey := key
      lenflags := v.lenflags
      gndv := v.gndv
      stitchDir := v.stitchDir
      ndvregs := v.ndvregs })

/-- What a sectioned read takes from the pieces. -/
structure Keeps (p : Pieces version nrgs ncols nlencols) (v : Values) : Prop where
  lenflags : Reads (section? (7 ≤ version) (List.replicate ncols 0) (bytes ncols)) p.lenflags v.lenflags
  count : v.lenflags.countP (· ≠ 0) = nlencols
  dirs : Reads (many readRgDir nrgs) p.dirs v.dirs
  chunks : Reads (many (many readChunk ncols) nrgs) p.chunks v.chunks
  ndv : Reads (section? (2 ≤ version) [] (many (word 8) ncols)) p.ndv v.ndv
  sorted : Reads (section? (5 ≤ version) (List.replicate ncols 0) (bytes ncols)) p.sorted v.sorted
  key : Reads (section? (6 ≤ version) (some []) readClusterKey) p.key v.key
  gndv : Reads (section? (7 ≤ version) [] (many (word 8) ncols)) p.gndv v.gndv
  stitchDir : Reads (section? (7 ≤ version) [] (many readBlobEntry (nrgs * ncols))) p.stitchDir v.stitchDir
  ndvregs : Reads (section? (8 ≤ version) [] (many readBlobEntry ncols)) p.ndvregs v.ndvregs

structure Holds (p : Pieces version nrgs ncols nlencols) (st : Stats) : Prop where
  sums : Reads (section? (4 ≤ version) [] (many (many readI128 ncols) nrgs)) p.sums st.sums
  lenstats : Reads (section? (7 ≤ version) []
    (many (many readLenstat (granulesPerRg * nlencols)) nrgs)) p.lenstats st.lenstats
  zerocnt : Reads (section? (7 ≤ version) [] (many (many (word 4) (granulesPerRg * ncols)) nrgs))
    p.zerocnt st.zerocnt

variable {p : Pieces version nrgs ncols nlencols}

end Pieces

section Inversion

variable {file : List UInt8} {footerOff ncols version e : Nat} {f : Footer}

theorem readExactAt_eq_ok : readExactAt file off len = .ok m ↔ slice file off len = some m := by
  rw [readExactAt]
  cases slice file off len <;> simp

end Inversion

section Buffer

variable {file : List UInt8} {footerOff : Nat}

/-- Sections with a mark on those that are fetched. -/
abbrev Marked := List (Bool × List UInt8)

def Marked.bytes (segs : Marked) : List UInt8 := segs.flatMap Prod.snd

/-- The ranges of the fetched sections from `off` on. -/
def Marked.ranges : Nat → Marked → List (Nat × Nat)
  | _, [] => []
  | off, (true, m) :: segs => (off, off + m.length) :: Marked.ranges (off + m.length) segs
  | off, (false, m) :: segs => Marked.ranges (off + m.length) segs

theorem fetch_eq (h : Sits file (footerOff + pre.length) m) :
    fetch file footerOff (pre ++ List.replicate m.length 0 ++ post) (pre.length, pre.length + m.length) =
      .ok (pre ++ m ++ post) := by
  by_cases hm : m = []
  · subst hm
    simp [fetch]
  · have hpos := length_pos_of_ne_nil hm
    have hread : readExactAt file (footerOff + pre.length) m.length = .ok m := readExactAt_eq_ok.mpr h.slice
    simp only [fetch, Nat.lt_add_right_iff_pos, hpos, Nat.add_sub_cancel_left, hread, run_ok_bind]
    have hzero : pre.length - (pre ++ List.replicate m.length 0 ++ post).length = 0 := by
      simp only [length_append]
      omega
    have hdrop : (pre ++ List.replicate m.length 0 ++ post).drop (pre.length + m.length) = post :=
      drop_left' (by simp)
    rw [overwrite]
    simp

/-- The sections of a footer as the sectioned read marks them. -/
def Pieces.marked {version nrgs ncols nlencols : Nat} (p : Pieces version nrgs ncols nlencols)
    (tail : List UInt8) : Marked :=
  [(true, p.front), (false, p.sums), (true, p.sorted ++ p.key), (false, p.lenstats),
    (true, p.gndv ++ p.stitchDir), (false, p.zerocnt), (true, p.ndvregs ++ tail)]

section

variable (p : Pieces version nrgs ncols nlencols)
include p

end

end Buffer

section Lazy

variable {file : List UInt8} {footerOff ncols version e nrgs nlencols : Nat} {f : Footer}

section

variable (p : Pieces version nrgs ncols nlencols)

end

end Lazy

end ColumnarFooterLazy
