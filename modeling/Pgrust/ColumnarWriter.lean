import Pgrust.ColumnarFooter
import Pgrust.ColumnarStitch

/-!
# The part writer

`open_writer_inner`, `append_row`, `seal_rg` and `finish` on the logical byte stream
of a part. Row groups, blobs and footers go to 64-byte aligned offsets behind what is
committed; the header is the last thing written. Failing I/O is not modelled.
-/
namespace ColumnarWriter

open ByteImage ColumnarFormat ColumnarAppend ColumnarSealing ColumnarFooter ColumnarStitch ColumnarHll

/-- Bytes over a range of the file; a gap in front of them is a hole of zeros. -/
def overwrite (file : List UInt8) (off : Nat) (buf : List UInt8) : List UInt8 :=
  file.take off ++ List.replicate (off - file.length) 0 ++ buf ++ file.drop (off + buf.length)

/-- The offset and the end of what is written are `u64`, also for an empty write. -/
def writeAllAt (file buf : List UInt8) (off : Nat) : Run (List UInt8) :=
  if 2 ^ 64 ≤ off + buf.length then .error .panicked
  else .ok (if buf = [] then file else overwrite file off buf)

def blcksz : Nat := 8192

/-- The tail is padded to whole blocks. -/
def padAndSync (file : List UInt8) (logicalEnd : Nat) : List UInt8 :=
  file ++ List.replicate (alignTo blcksz logicalEnd - file.length) 0

/-- The bytes of a part and the end of what is written into it. -/
structure PartFile where
  bytes : List UInt8
  writeOff : Nat
  deriving DecidableEq, Repr

/-- Bytes at the next aligned offset behind what is written, with that offset. -/
def PartFile.append (p : PartFile) (buf : List UInt8) : Run (Nat × PartFile) := do
  let off := align64 p.writeOff
  let bytes ← writeAllAt p.bytes buf off
  .ok (off, ⟨bytes, off + buf.length⟩)

/-- Blobs one behind the other, with their directory entries; a length is narrowed to
`u32` where it is put into a directory. -/
def PartFile.appendBlobs (p : PartFile) : List (List UInt8) → Run (List (Nat × Nat) × PartFile)
  | [] => .ok ([], p)
  | blob :: blobs => do
    let (off, p) ← p.append blob
    let (dir, p) ← p.appendBlobs blobs
    .ok ((off, blob.length) :: dir, p)

structure CbWriter where
  part : PartFile
  xid : Nat
  frozen : Bool
  coltypes : List ColType
  cols : List ColState
  nbuf : Nat
  rgs : List FooterRg
  fingerprint : Nat
  hasPrev : Bool
  opts : CbWriterOpts
  /-- The key of the ingest sorter and the rows put into it. -/
  sorter : Option (List (Nat × SortKeyKind) × List Row)
  drainingClustered : Bool
  stitch : Option (List (Option StitchCol))
  /-- The owner of each column once a pool has taken the interners over. -/
  stitchPool : Option (List (Option Nat))

def freshCol (t : ColType) : ColState := ⟨.fresh t, some .empty, some true, 0, []⟩

def CbWriter.resetBuilders (w : CbWriter) : CbWriter :=
  { w with
    cols := List.zipWith (fun t col => { col with builder := .fresh t }) w.coltypes w.cols
    nbuf := 0 }

def CbWriter.header (w : CbWriter) (footerOff : Nat) : List UInt8 :=
  headerBytes w.coltypes.length footerOff w.fingerprint

/-- The blobs of the directory; one that is absent or unreadable makes all unknown. -/
def loadBlobs (file : List UInt8) : List (Nat × Nat) → Run (Option (List Hll))
  | [] => .ok (some [])
  | (off, len) :: dir =>
    if off = 0 ∨ len = 0 ∨ file.length < off + len then .ok none
    else do
      let blob ← readExactAt file off len
      match Hll.fromBlob blob with
      | none => .ok none
      | some h => do
        let hlls ← loadBlobs file dir
        .ok (hlls.map (h :: ·))

def loadNdvRegs (host : Host) (file : List UInt8) (dir : List (Nat × Nat)) (ncols : Nat) :
    Run (Option (List Hll)) :=
  if host.ndvRegs = false ∨ dir.length ≠ ncols then .ok none else loadBlobs file dir

/-- The trackers of a writer that appends to committed row groups. -/
def CbWriter.continueFrom (w : CbWriter) (ndv : Option (List Hll)) : CbWriter :=
  { w with
    cols := w.cols.mapIdx (fun c col => { col with ndv := ndv.bind (fun hlls => hlls[c]?), sorted := none })
    stitch := none }

/-- The writer before it has looked at the file. -/
def blankWriter (host : Host) (file : List UInt8) (xid : Nat) (coltypes : List ColType)
    (fingerprint : Nat) (opts : CbWriterOpts) : CbWriter where
  part := ⟨file, cbHeaderLen⟩
  xid := xid
  frozen := false
  coltypes := coltypes
  cols := coltypes.map freshCol
  nbuf := 0
  rgs := []
  fingerprint := fingerprint
  hasPrev := false
  opts := opts
  sorter := none
  drainingClustered := false
  stitch := if host.stitchWrite then
      some (coltypes.map (fun t => if t.isText then some StitchCol.new else none))
    else none
  stitchPool := none

/-- An empty part: a header without a footer is published first. -/
def CbWriter.initHeader (w : CbWriter) (frozenOk : Bool) : Run CbWriter := do
  let bytes ← writeAllAt w.part.bytes (w.header 0) 0
  .ok { w with frozen := frozenOk, part := ⟨padAndSync bytes cbHeaderLen, w.part.writeOff⟩ }

/-- The trackers of a writer that appends to the row groups of a footer. -/
def CbWriter.takeOver (host : Host) (w : CbWriter) (f : Footer) : Run CbWriter :=
  if f.rgs = [] then .ok w
  else do
    let ndv ← loadNdvRegs host w.part.bytes f.ndvregs w.coltypes.length
    .ok (w.continueFrom ndv)

def CbWriter.reopen (host : Host) (w : CbWriter) (footerOff version : Nat) : Run CbWriter := do
  let (f, footerEnd) ← readFooterRgs w.part.bytes footerOff w.coltypes.length version true
  let w ← w.takeOver host f
  .ok { w with rgs := f.rgs, part := ⟨w.part.bytes, align64 (max footerEnd footerOff)⟩ }

def openWriterInner (host : Host) (file : List UInt8) (xid : Nat) (frozenOk : Bool)
    (coltypes : List ColType) (fingerprint : Nat) (opts : CbWriterOpts) : Run CbWriter :=
  let w := blankWriter host file xid coltypes fingerprint opts
  if file.length < cbHeaderLen then w.initHeader frozenOk
  else do
    let hdr ← readExactAt file 0 cbHeaderLen
    match ← readHeaderOpt hdr with
    | none => w.initHeader frozenOk
    | some (footerOff, fp, version) =>
      if fp ≠ w.fingerprint then
        .error (raise "cbstore: schema fingerprint mismatch" .internalError)
      else if footerOff ≠ 0 then w.reopen host footerOff version
      else .ok w

section Rows

variable (host : Host)

/-- The flags of the row groups this writer seals. -/
def CbWriter.rgFlags (w : CbWriter) : Nat :=
  (if w.frozen then rgFlagFrozen else 0) ||| rgFlagSums ||| rgFlagLenstats ||| rgFlagZerocnt |||
    (if w.drainingClustered then rgFlagClustered else 0)

/-- Dictionaries are captured where the column's stitch is live. -/
def CbWriter.capture (w : CbWriter) : List Bool :=
  (List.range w.coltypes.length).map (fun c =>
    match w.stitch with
    | none => false
    | some cols => (cols.getD c none).any (fun st => !st.poisoned))

def footerRg (sealed : SealedRg) (fileOff xid : Nat) : FooterRg where
  fileOff := fileOff
  nrows := sealed.nrows
  xmin := xid
  flags := sealed.flags
  chunks := sealed.chunks
  sums := sealed.sums
  lenstats := sealed.lenstats
  zerocnt := sealed.zerocnt

/-- A sealed row group goes into the file and into the footer chain. -/
def CbWriter.commitRg (w : CbWriter) (sealed : SealedRg) : Run CbWriter := do
  let (fileOff, part) ← w.part.append sealed.body
  .ok { w with part := part, rgs := w.rgs ++ [footerRg sealed fileOff w.xid] }

def CbWriter.registerStitch (w : CbWriter) (sealed : SealedRg) : CbWriter :=
  { w with stitch := w.stitch.map (fun cols => ColumnarStitch.registerStitch cols sealed.dicts) }

def CbWriter.sealRg (w : CbWriter) : Run CbWriter :=
  if w.nbuf = 0 then .ok w
  else do
    let sealed ← orPanic (sealRgBody host w.opts (w.cols.map ColState.builder) w.nbuf w.xid w.rgFlags w.capture)
    let w ← (w.registerStitch sealed).commitRg sealed
    .ok w.resetBuilders

/-- The row is in the builders; a full row group is sealed. -/
def CbWriter.appendRow (w : CbWriter) (row : Row) : Run CbWriter := do
  let cols ← appendRowInto host.hashBytes w.hasPrev w.coltypes w.cols row.values row.isnull
  let w := { w with cols := cols, hasPrev := true, nbuf := w.nbuf + 1 }
  if w.nbuf = rgRows then w.sealRg host else .ok w

def CbWriter.appendAll (w : CbWriter) (rows : List Row) : Run CbWriter := rows.foldlM (CbWriter.appendRow host) w

/-- Rows go to the sorter where one is declared. -/
def CbWriter.ingestRow (w : CbWriter) (row : Row) : Run CbWriter :=
  match w.sorter with
  | none => w.appendRow host row
  | some (keys, rows) =>
    let ncols := w.coltypes.length
    if row.values.length < ncols ∨ row.isnull.length < ncols then .error .panicked
    else if (row.isnull.take ncols).any id then
      .error (raise "cbstore does not support NULL values" .featureNotSupported)
    else .ok { w with sorter := some (keys, rows ++ [⟨row.values.take ncols, row.isnull.take ncols⟩]) }

def CbWriter.drainSorter (w : CbWriter) : Run CbWriter :=
  match w.sorter with
  | none => .ok w
  | some (keys, rows) => do
    let rows ← host.ingestSort keys rows
    { w with sorter := none, drainingClustered := !w.opts.clusterKey.isEmpty }.appendAll host rows

end Rows

section Finish

variable (host : Host)

/-- What `finish` collects while it writes the stitch. -/
structure StitchOut where
  part : PartFile
  gndv : List Nat
  dir : List (Nat × Nat)

/-- `stitch_dir[rg * ncols + c] = (off, len / 4)`. -/
def setColumn (ncols c : Nat) (dir : List (Nat × Nat)) (blobs : List (Nat × Nat)) : List (Nat × Nat) :=
  blobs.zipIdx.foldl (fun dir p => dir.set (p.2 * ncols + c) (p.1.1, p.1.2 / 4 % 2 ^ 32)) dir

def StitchOut.write (ncols nrgs : Nat) (out : StitchOut) (f : Finalized) : Run StitchOut :=
  if f.2.2.length ≠ nrgs then .ok out
  else do
    let (dir, part) ← out.part.appendBlobs f.2.2
    .ok ⟨part, out.gndv.set f.1 f.2.1, setColumn ncols f.1 out.dir dir⟩

/-- The register blobs, where the part keeps sketches of all its columns. -/
def writeNdvRegs (part : PartFile) (ndv : List (Option Hll)) : Run (List (Nat × Nat) × PartFile) :=
  match if host.ndvRegs then ndv.mapM id else none with
  | some hlls => do
    let (dir, part) ← part.appendBlobs (hlls.map Hll.toBlob)
    .ok (dir.map (fun e => (e.1, e.2 % 2 ^ 32)), part)
  | none => .ok (List.replicate ndv.length (0, 0), part)

def clampRows (total n : Nat) : Nat := max 1 (min n (max total 1))

/-- The distinct count of a column: exact from the stitch, estimated from the sketch,
or 0 for unknown. -/
def ndvScalar (total gndv : Nat) (ndv : Option Hll) : Nat :=
  if host.ndvRegs ∧ 0 < gndv then clampRows total gndv
  else
    match ndv with
    | some h => clampRows total (host.estimate h)
    | none => 0

def CbWriter.footer (w : CbWriter) (gndv : List Nat) (stitchDir ndvregs : List (Nat × Nat)) : Footer where
  rgs := w.rgs
  ndv := List.zipWith (ndvScalar host (w.rgs.map FooterRg.nrows).sum) gndv (w.cols.map ColState.ndv)
  sorted := (w.cols.map ColState.sorted).map (fun s => if s = some true then 1 else 0)
  clusterKey := w.opts.clusterKey.map Prod.fst
  lenflags := w.coltypes.map (fun t => if t.isText then 1 else 0)
  gndv := gndv
  stitchDir := stitchDir
  ndvregs := ndvregs

def nlencols (coltypes : List ColType) : Nat := coltypes.countP ColType.isText

/-- `finish` from the finalized stitch on: the bytes of the published part. -/
def CbWriter.finishWith (w : CbWriter) (finalized : List Finalized) : Run (List UInt8) := do
  let ncols := w.coltypes.length
  let nrgs := w.rgs.length
  let out ← finalized.foldlM (StitchOut.write ncols nrgs)
    ⟨w.part, List.replicate ncols 0, List.replicate (nrgs * ncols) (0, 0)⟩
  let (ndvregs, part) ← writeNdvRegs host out.part (w.cols.map ColState.ndv)
  let f := w.footer host out.gndv out.dir ndvregs
  let (footerOff, part) ← part.append (footerBytes ncols (nlencols w.coltypes) f)
  writeAllAt (padAndSync part.bytes part.writeOff) (w.header footerOff) 0

/-- The finalized columns: of the joined pool threads, or inline those that have a map
for every row group. -/
def CbWriter.finalized (w : CbWriter) (threads : List (List (Nat × StitchCol))) : List Finalized :=
  match w.stitchPool, w.stitch with
  | some _, _ => joinResults threads
  | none, some cols => finalizeCols ((liveFrom 0 cols).filter (fun p => p.2.rgMaps.length = w.rgs.length))
  | none, none => []

/-- `finish`, with what the pool's threads hold when they are joined. -/
def CbWriter.finish (w : CbWriter) (threads : List (List (Nat × StitchCol))) : Run (List UInt8) := do
  let w ← w.drainSorter host
  let w ← w.sealRg host
  w.finishWith host (w.finalized threads)

end Finish

end ColumnarWriter
