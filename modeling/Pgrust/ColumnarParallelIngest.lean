import Pgrust.ColumnarParallelColumns

/-!
# Parallel ingest equals serial ingest

The serial writer seals group after group; the leader commits what the workers have
encoded. The two writers are kept in step, and the parts they publish are the same.
-/
namespace ColumnarParallelIngest

open ByteImage ColumnarFormat ColumnarAppend ColumnarSealing ColumnarFooter ColumnarStitch ColumnarHll List
open ColumnarWriter ColumnarParallel ColumnarParallelColumns

variable {w : CbWriter} {α : Type} {st : StitchCol} {plan : ParallelIngestPlan}

section Serial

variable (host : Host)

/-- The rows of a group in the builders, not yet sealed. -/
def buffer (w : CbWriter) (rows : List Row) : Run CbWriter := do
  let cols ← appendRows host.hashBytes w.coltypes w.hasPrev w.cols rows
  .ok { w with cols := cols, hasPrev := w.hasPrev || !rows.isEmpty, nbuf := w.nbuf + rows.length }

/-- One group of the serial writer. -/
def sealGroup (w : CbWriter) (rows : List Row) : Run CbWriter := do
  let w ← buffer host w rows
  w.sealRg host

variable {host}

theorem buffer_cons (w) (r : Row) (rows : List Row) : buffer host w (r :: rows) = (do
    let cols ← appendRowInto host.hashBytes w.hasPrev w.coltypes w.cols r.values r.isnull
    buffer host { w with cols := cols, hasPrev := true, nbuf := w.nbuf + 1 } rows) := by
  simp only [buffer, appendRows]
  cases appendRowInto host.hashBytes w.hasPrev w.coltypes w.cols r.values r.isnull with
  | error => rfl
  | ok => simp [Nat.add_assoc, Nat.add_comm 1]

variable (host) in
/-- Rows that do not overfill the row group are buffered, and sealed with its last. -/
theorem appendAll_eq (w) (r : Row) (rows : List Row)
    (h : w.nbuf + (rows.length + 1) ≤ rgRows) : w.appendAll host (r :: rows) = (do
      let w ← buffer host w (r :: rows)
      if w.nbuf = rgRows then w.sealRg host else .ok w) := by
  induction rows generalizing w r with
  | nil =>
    simp only [CbWriter.appendAll, foldlM_cons, foldlM_nil, buffer_cons, CbWriter.appendRow]
    cases appendRowInto host.hashBytes w.hasPrev w.coltypes w.cols r.values r.isnull with
    | error => rfl
    | ok => simp [buffer, appendRows]
  | cons r' rows ih =>
    rw [CbWriter.appendAll, foldlM_cons, buffer_cons, CbWriter.appendRow]
    cases appendRowInto host.hashBytes w.hasPrev w.coltypes w.cols r.values r.isnull with
    | error => rfl
    | ok =>
      have hlt : ¬ w.nbuf + 1 = rgRows := by
        simp only [length_cons] at h
        omega
      simp only [run_ok_bind, hlt, if_false]
      exact ih _ r' (by simp only [length_cons] at h ⊢; omega)

theorem buffer_ok (h : buffer host w rows = .ok w') : w'.nbuf = w.nbuf + rows.length ∧ w'.sorter = w.sorter := by
  obtain ⟨cols, -, h⟩ := run_bind_eq_ok.mp h
  cases h
  exact ⟨rfl, rfl⟩

theorem commitRg_ok (h : w.commitRg sealed = .ok w') :
    ∃ part fileOff, w.part.append sealed.body = .ok (fileOff, part) ∧
      w' = { w with part := part, rgs := w.rgs ++ [footerRg sealed fileOff w.xid] } := by
  obtain ⟨⟨fileOff, part⟩, hpart, h⟩ := run_bind_eq_ok.mp h
  cases h
  exact ⟨part, fileOff, hpart, rfl⟩

theorem sealRg_ok (h : w.sealRg host = .ok w') : w'.nbuf = 0 ∧ w'.sorter = w.sorter := by
  rw [CbWriter.sealRg] at h
  split_ifs at h with h0
  · cases h
    exact ⟨h0, rfl⟩
  · obtain ⟨sealed, -, h⟩ := run_bind_eq_ok.mp h
    obtain ⟨w₁, hw₁, h⟩ := run_bind_eq_ok.mp h
    obtain ⟨part, fileOff, -, rfl⟩ := commitRg_ok hw₁
    cases h
    exact ⟨rfl, rfl⟩

theorem finish_of_no_sorter (h : w.sorter = none) (threads : List (List (Nat × StitchCol))) :
    w.finish host threads = (do
      let w ← w.sealRg host
      w.finishWith host (w.finalized threads)) := by
  rw [CbWriter.finish, CbWriter.drainSorter, h]
  rfl

theorem run_bind_congr {β : Type} {x : Run α} {f g : α → Run β} (h : ∀ a, x = .ok a → f a = g a) :
    (x >>= f) = (x >>= g) := by
  cases x with
  | error => rfl
  | ok a => exact h a rfl

theorem run_bind_assoc {β γ : Type} (x : Run α) (f : α → Run β) (g : β → Run γ) :
    (x >>= f >>= g) = (x >>= fun a => f a >>= g) := by cases x <;> rfl

variable (host) in
/-- The serial writer goes group by group, and `finish` seals what is left. -/
theorem serialLoad_eq (w) (hn : w.nbuf = 0) (hs : w.sorter = none) (rows : List Row) : serialLoad host w rows = (do
      let w ← (rgGroups rows).foldlM (sealGroup host) w
      w.finishWith host (w.finalized [])) := by
  induction rows using rgGroups.induct generalizing w with
  | case1 =>
    have hseal : w.sealRg host = .ok w := by rw [CbWriter.sealRg, if_pos hn]
    simp only [serialLoad, CbWriter.appendAll, rgGroups, foldlM_nil]
    exact (finish_of_no_sorter hs []).trans (by rw [hseal]; rfl)
  | case2 r rest ih =>
    have hrg : 0 < rgRows := by decide
    obtain ⟨m, hm⟩ : ∃ m, rgRows = m + 1 := ⟨rgRows - 1, by omega⟩
    have htake : (r :: rest).take rgRows = r :: rest.take m := by rw [hm, take_succ_cons]
    have hlen : (rest.take m).length + 1 = min rgRows (r :: rest).length := by
      rw [length_take, length_cons]
      omega
    have hall := appendAll_eq host w r (rest.take m) (by omega)
    rw [rgGroups, foldlM_cons, run_bind_assoc]
    have hsplit : w.appendAll host (r :: rest) = (do
        let w ← w.appendAll host ((r :: rest).take rgRows)
        w.appendAll host ((r :: rest).drop rgRows)) := by
      simp only [CbWriter.appendAll]
      rw [← foldlM_append, take_append_drop]
    simp only [serialLoad]
    rw [hsplit, htake, hall, sealGroup, run_bind_assoc, run_bind_assoc, run_bind_assoc]
    apply run_bind_congr
    intro w₁ hw₁
    obtain ⟨hnbuf, hsorter⟩ := buffer_ok hw₁
    rw [length_cons, hlen, hn, Nat.zero_add] at hnbuf
    by_cases hfull : rgRows ≤ (r :: rest).length
    · -- a full group is sealed with its last row
      rw [Nat.min_eq_left hfull] at hnbuf
      rw [if_pos hnbuf]
      apply run_bind_congr
      intro w₂ hw₂
      obtain ⟨hn₂, hs₂⟩ := sealRg_ok hw₂
      exact ih w₂ hn₂ (hs₂.trans (hsorter.trans hs))
    · -- the last, shorter group is sealed by `finish`
      have hlt : (r :: rest).length < rgRows := Nat.lt_of_not_le hfull
      have hdrop : (r :: rest).drop rgRows = [] := drop_eq_nil_of_le hlt.le
      rw [if_neg (by omega), hdrop, rgGroups, run_ok_bind]
      simp only [CbWriter.appendAll, foldlM_nil]
      exact finish_of_no_sorter (hsorter.trans hs) []

end Serial

section Step

/-- Which columns have an interner. -/
def liveFlags (w : CbWriter) : List Bool :=
  (List.range w.coltypes.length).map (fun c =>
    match w.stitch with
    | none => false
    | some cols => (cols.getD c none).isSome)

/-- The serial writer and the leader's between two groups. -/
structure InStep (plan : ParallelIngestPlan) (ws wp : CbWriter)
    (threads : List (List (Nat × StitchCol))) : Prop where
  same : wp = { ws with cols := wp.cols, stitch := wp.stitch, stitchPool := wp.stitchPool }
  nbuf : ws.nbuf = 0
  sorter : ws.sorter = none
  draining : ws.drainingClustered = false
  noPool : ws.stitchPool = none
  cols : TrackAll plan ws.coltypes ws.cols wp.cols
  xid : plan.xid = ws.xid
  flags : plan.flags = ws.rgFlags
  coltypes : plan.coltypes = ws.coltypes
  opts : plan.opts = ws.opts
  capture : plan.capture = liveFlags ws
  stitchLength : ∀ cols, ws.stitch = some cols → cols.length = ws.coltypes.length
  stitch : (wp.stitchPool = none ∧ wp.stitch = ws.stitch) ∨
    ∃ assign cols, wp.stitchPool = some assign ∧ ws.stitch = some cols ∧ Holds assign threads cols

theorem getD_zipWith_gate (h : captures[c]? = some true) :
    (List.zipWith gate captures dicts).getD c none = dicts.getD c none := by
  rw [getD_eq_getElem?_getD, getD_eq_getElem?_getD, getElem?_zipWith, h]
  cases dicts[c]? <;> rfl

theorem register_of_poisoned (h : st.poisoned = true) (d d' : Option Dict) :
    st.register d = st.register d' := by simp [StitchCol.register, h]

/-- Captures that differ only at columns whose interner is poisoned or absent register
alike. -/
theorem registerStitch_gate (dicts : List (Option Dict))
    (h : ∀ (c : Nat) (st : StitchCol), cols[c]? = some (some st) → st.poisoned = false →
      capS[c]? = some true ∧ capP[c]? = some true) :
    registerStitch cols (List.zipWith gate capS dicts) = registerStitch cols (List.zipWith gate capP dicts) := by
  apply ext_getElem?
  intro c
  simp only [registerStitch, getElem?_mapIdx]
  cases hc : cols[c]? with
  | none => rfl
  | some st =>
    cases st with
    | none => rfl
    | some st =>
      cases hp : st.poisoned with
      | true =>
        simp only [Option.map_some, Option.some.injEq]
        exact register_of_poisoned hp _ _
      | false =>
        obtain ⟨hS, hP⟩ := h c st hc hp
        simp only [getD_zipWith_gate hS, getD_zipWith_gate hP]

theorem capture_of_live {c : Nat} (hstitch : w.stitch = some cols) (hlen : cols.length = w.coltypes.length)
    (hc : cols[c]? = some (some st)) (hp : st.poisoned = false) :
    w.capture[c]? = some true ∧ (liveFlags w)[c]? = some true := by
  have hlt : c < w.coltypes.length := by
    rw [← hlen]
    exact (List.getElem?_eq_some_iff.mp hc).1
  constructor
  · rw [CbWriter.capture, getElem?_map, getElem?_range hlt]
    simp [hstitch, hc, hp]
  · rw [liveFlags, getElem?_map, getElem?_range hlt]
    simp [hstitch, hc]

theorem registerStitch_length (cols : List (Option StitchCol)) (dicts : List (Option Dict)) :
    (registerStitch cols dicts).length = cols.length := by simp [registerStitch]

theorem registerStitch_isSome (cols : List (Option StitchCol)) (dicts : List (Option Dict)) (c : Nat) :
    ((registerStitch cols dicts).getD c none).isSome = (cols.getD c none).isSome := by
  simp only [registerStitch, getD_eq_getElem?_getD, getElem?_mapIdx]
  cases cols[c]? with
  | none => rfl
  | some st => cases st <;> rfl

theorem liveFlags_register (w) (sealed : SealedRg) : liveFlags (w.registerStitch sealed) = liveFlags w := by
  simp only [liveFlags, CbWriter.registerStitch]
  cases w.stitch with
  | none => rfl
  | some => simp only [Option.map_some, registerStitch_isSome]

variable {host : Host} {plan : ParallelIngestPlan} {ws wp : CbWriter}
  {threads : List (List (Nat × StitchCol))}

/-- The group sealed with every dictionary captured. -/
def sealAll (host : Host) (plan : ParallelIngestPlan) (cols : List ColState) (nbuf : Nat) : Option SealedRg :=
  sealRgBody host plan.opts (cols.map ColState.builder) nbuf plan.xid plan.flags
    (List.replicate plan.coltypes.length true)

def SealedRg.gated (captures : List Bool) (sealed : SealedRg) : SealedRg :=
  { sealed with dicts := List.zipWith gate captures sealed.dicts }

theorem sealRgBody_gated (cols : List ColState) (nbuf : Nat) {captures : List Bool}
    (h : captures.length = plan.coltypes.length) :
    sealRgBody host plan.opts (cols.map ColState.builder) nbuf plan.xid plan.flags captures =
      (sealAll host plan cols nbuf).map (SealedRg.gated captures) := by
  rw [sealRgBody_capture, map_const', h]
  rfl

/-- The serial group: rows into the columns, the seal, the registration, the commit. -/
theorem sealGroup_eq (h : InStep plan ws wp threads) (r : Row) (rows : List Row) :
    sealGroup host ws (r :: rows) = (do
      let cols ← appendRows host.hashBytes ws.coltypes ws.hasPrev ws.cols (r :: rows)
      let base ← orPanic (sealAll host plan cols (rows.length + 1))
      let (fileOff, part) ← ws.part.append base.body
      .ok { ws with
            part := part
            cols := List.zipWith resetBuilder ws.coltypes cols
            hasPrev := true
            rgs := ws.rgs ++ [footerRg base fileOff ws.xid]
            stitch := ws.stitch.map (fun cols =>
              registerStitch cols (List.zipWith gate (liveFlags ws) base.dicts)) }) := by
  simp only [sealGroup, buffer, run_bind_assoc]
  apply run_bind_congr
  intro cols _
  have hnbuf : ws.nbuf + (r :: rows).length = rows.length + 1 := by rw [h.nbuf, Nat.zero_add, length_cons]
  have hne : ¬ rows.length + 1 = 0 := Nat.succ_ne_zero _
  have hseal := @sealRgBody_gated host plan cols (rows.length + 1) ws.capture (by
    rw [CbWriter.capture, length_map, length_range, h.coltypes])
  rw [h.opts, h.xid, h.flags] at hseal
  simp only [hnbuf]
  have hstitch : ∀ base : SealedRg, ws.stitch.map (fun st => registerStitch st
      (SealedRg.gated ws.capture base).dicts) = ws.stitch.map (fun st =>
        registerStitch st (List.zipWith gate (liveFlags ws) base.dicts)) := by
    intro base
    cases hst : ws.stitch with
    | none => rfl
    | some st =>
      exact congrArg some (registerStitch_gate base.dicts (fun c st' hc hp =>
        capture_of_live hst (h.stitchLength st hst) hc hp))
  have hbody : sealRgBody host ws.opts (cols.map ColState.builder) (rows.length + 1) ws.xid ws.rgFlags
      ws.capture = (sealAll host plan cols (rows.length + 1)).map (SealedRg.gated ws.capture) := hseal
  change (do
    let sealed ← orPanic (sealRgBody host ws.opts (cols.map ColState.builder) (rows.length + 1) ws.xid
      ws.rgFlags ws.capture)
    let w ← CbWriter.commitRg (CbWriter.registerStitch _ sealed) sealed
    .ok w.resetBuilders) = _
  rw [hbody]
  cases sealAll host plan cols (rows.length + 1) with
  | none => rfl
  | some base =>
    simp only [Option.map_some, orPanic, run_ok_bind, CbWriter.commitRg, CbWriter.registerStitch, hstitch]
    have hsame : (SealedRg.gated ws.capture base).body = base.body := rfl
    rw [hsame]
    cases ws.part.append base.body with
    | error => rfl
    | ok =>
      simp only [h.nbuf, isEmpty_cons, Bool.not_false, Bool.or_true]
      rfl

def trackersOf (cols : List ColState) (firsts : List (I64 × List UInt8)) :
    List (Option Hll × Option ColOrderProbe) :=
  List.zipWith (fun col first => (col.ndv, probeOf col first)) cols firsts

/-- The rows of a group in an encoder, with the first values. -/
def encodeRows (host : Host) (plan : ParallelIngestPlan) (r : Row) (rows : List Row) :
    Run (List ColState × List (I64 × List UInt8)) := do
  let first ← appendRowInto host.hashBytes false plan.coltypes (plan.coltypes.map (encoderCol plan))
    r.values r.isnull
  let cols ← appendRows host.hashBytes plan.coltypes true first rows
  .ok (cols, prevValues first)

theorem encodeRg_eq (hcap : plan.capture.length = plan.coltypes.length) (r : Row) (rows : List Row) :
    encodeRg host plan (r :: rows) = (do
      let e ← encodeRows host plan r rows
      let base ← orPanic (sealAll host plan e.1 (rows.length + 1))
      .ok ⟨SealedRg.gated plan.capture base, trackersOf e.1 e.2⟩) := by
  rw [encodeRg_cons, encodeRows, run_bind_assoc]
  apply run_bind_congr
  intro first _
  rw [run_bind_assoc]
  apply run_bind_congr
  intro cols _
  have hne : ¬ rows.length + 1 = 0 := Nat.succ_ne_zero _
  simp only [RgChunkEncoder.seal, run_ok_bind, sealRgBody_gated cols _ hcap]
  cases sealAll host plan cols (rows.length + 1) <;> rfl

variable (host) in
/-- The serial columns and the encoder's take the same rows, or neither does. -/
theorem InStep.rows (h : InStep plan ws wp threads) (r : Row) (rows : List Row) :
    Agree (fun ss e => FollowAll ws.hasPrev ws.coltypes ws.cols e.2 ss e.1)
      (appendRows host.hashBytes ws.coltypes ws.hasPrev ws.cols (r :: rows))
      (encodeRows host plan r rows) := by
  rw [encodeRows, h.coltypes, appendRows]
  apply (h.cols.firstRow r.values r.isnull).bind
  intro ss es hfirst
  have hnext := hfirst.nextRows host.hashBytes rows
  cases hs : appendRows host.hashBytes ws.coltypes true ss rows with
  | error =>
    cases he : appendRows host.hashBytes ws.coltypes true es rows with
    | error => exact trivial
    | ok =>
      rw [hs, he] at hnext
      exact hnext.elim
  | ok =>
    cases he : appendRows host.hashBytes ws.coltypes true es rows with
    | error =>
      rw [hs, he] at hnext
      exact hnext.elim
    | ok =>
      rw [hs, he] at hnext
      exact hnext

/-- The commit behind the stitch, once the body is written and the columns are. -/
theorem commitEncoded_eq : commitEncoded w enc = (do
      let (fileOff, part) ← w.part.append enc.sealed.body
      let cols ← commitCols w.hasPrev w.coltypes w.cols enc.trackers
      .ok { w with
            part := part
            cols := cols
            hasPrev := w.hasPrev || decide (0 < enc.sealed.nrows)
            rgs := w.rgs ++ [footerRg enc.sealed fileOff w.xid] }) := by
  rw [commitEncoded, CbWriter.commitRg]
  cases w.part.append enc.sealed.body <;> rfl

/-- The actions of one commit on the leader's writer and the threads: the sends leave
the threads with the registration, the act is the commit. -/
theorem InStep.settle_commit (h : InStep plan ws wp threads) (enc : EncodedRg) : ∃ stitch threads',
      ((wp.stitchPool = none ∧ stitch = ws.stitch.map (fun st => registerStitch st enc.sealed.dicts)) ∨
        ∃ assign cols, wp.stitchPool = some assign ∧ ws.stitch = some cols ∧
          Holds assign threads' (registerStitch cols enc.sealed.dicts)) ∧
      ∀ rest, Actors.settle recvMsg (commitActions wp enc ++ rest) wp threads =
        (commitEncoded { wp with stitch := stitch } enc).toOption.bind (fun w =>
          Actors.settle recvMsg rest w threads') := by
  cases h.stitch with
  | inl hinline =>
    obtain ⟨hpool, hst⟩ := hinline
    refine ⟨_, threads, Or.inl ⟨hpool, rfl⟩, fun rest => ?_⟩
    simp [commitActions, hpool, Actors.settle, CbWriter.registerStitch, hst]
  | inr hpooled =>
    obtain ⟨assign, cols, hpool, hst, hholds⟩ := hpooled
    obtain ⟨threads', hholds', hsettle⟩ := hholds.commit enc.sealed.dicts
    refine ⟨wp.stitch, threads', Or.inr ⟨assign, cols, hpool, hst, hholds'⟩, fun rest => ?_⟩
    change _ = (commitEncoded wp enc).toOption.bind _
    simp [commitActions, hpool, hsettle, Actors.settle]

theorem InStep.capture_length (h : InStep plan ws wp threads) : plan.capture.length = plan.coltypes.length := by
  rw [h.capture, h.coltypes, liveFlags, length_map, length_range]

/-- The serial writer behind a group whose body went to `fileOff`. -/
def serialNext (ws : CbWriter) (ss : List ColState) (base : SealedRg) (fileOff : Nat) (part : PartFile) :
    CbWriter :=
  { ws with
    part := part
    cols := List.zipWith resetBuilder ws.coltypes ss
    hasPrev := true
    rgs := ws.rgs ++ [footerRg base fileOff ws.xid]
    stitch := ws.stitch.map (fun cols => registerStitch cols (List.zipWith gate (liveFlags ws) base.dicts)) }

variable (host) in
section

variable (h : InStep plan ws wp threads)
include h

/-- Rows and seal of a group fail on both paths, or succeed on both. -/
theorem InStep.group_cases (r : Row) (rows : List Row) :
    ((∃ e, sealGroup host ws (r :: rows) = .error e) ∧ ∃ e, encodeRg host plan (r :: rows) = .error e) ∨
      ∃ ss es fs base, FollowAll ws.hasPrev ws.coltypes ws.cols fs ss es ∧ 0 < base.nrows ∧
        encodeRg host plan (r :: rows) = .ok ⟨SealedRg.gated (liveFlags ws) base, trackersOf es fs⟩ ∧
        sealGroup host ws (r :: rows) = (do
          let (fileOff, part) ← ws.part.append base.body
          .ok (serialNext ws ss base fileOff part)) := by
  rw [sealGroup_eq h, encodeRg_eq h.capture_length, h.capture]
  have hrows := h.rows host r rows
  cases hs : appendRows host.hashBytes ws.coltypes ws.hasPrev ws.cols (r :: rows) with
  | error e =>
    cases he : encodeRows host plan r rows with
    | error e' => exact Or.inl ⟨⟨e, rfl⟩, e', rfl⟩
    | ok =>
      rw [hs, he] at hrows
      exact hrows.elim
  | ok ss =>
    cases he : encodeRows host plan r rows with
    | error =>
      rw [hs, he] at hrows
      exact hrows.elim
    | ok ef =>
      rw [hs, he] at hrows
      have hfollow : FollowAll ws.hasPrev ws.coltypes ws.cols ef.2 ss ef.1 := hrows
      have hbuilders : sealAll host plan ss (rows.length + 1) = sealAll host plan ef.1 (rows.length + 1) := by
        rw [sealAll, sealAll, hfollow.builders]
      simp only [run_ok_bind, hbuilders]
      cases hbase : sealAll host plan ef.1 (rows.length + 1) with
      | none => exact Or.inl ⟨⟨_, rfl⟩, _, rfl⟩
      | some base =>
        refine Or.inr ⟨ss, ef.1, ef.2, base, hfollow, ?_, rfl, rfl⟩
        obtain ⟨x, -, hx⟩ := Option.bind_eq_some_iff.mp hbase
        split_ifs at hx
        cases hx
        exact Nat.succ_pos _

/-- The leader's writer behind a committed group is in step with the serial one. -/
theorem InStep.next {ss ps : List ColState} {base : SealedRg}
    {fileOff : Nat} {part : PartFile} {stitch : Option (List (Option StitchCol))}
    {threads' : List (List (Nat × StitchCol))} {rgs : List FooterRg} {hasPrev : Bool}
    (hcols : TrackAll plan ws.coltypes (List.zipWith resetBuilder ws.coltypes ss) ps)
    (hstitch : (wp.stitchPool = none ∧ stitch = (serialNext ws ss base fileOff part).stitch) ∨
      ∃ assign cols, wp.stitchPool = some assign ∧
        (serialNext ws ss base fileOff part).stitch = some cols ∧ Holds assign threads' cols)
    (hrgs : rgs = ws.rgs ++ [footerRg base fileOff ws.xid]) (hprev : hasPrev = true) :
    InStep plan (serialNext ws ss base fileOff part)
      { wp with stitch := stitch, part := part, cols := ps, hasPrev := hasPrev, rgs := rgs } threads' :=
  { h with
    same := by
      rw [hrgs, hprev, h.same]
      rfl
    cols := hcols
    capture := by
      have hlive : liveFlags (serialNext ws ss base fileOff part) =
          liveFlags (ws.registerStitch (SealedRg.gated (liveFlags ws) base)) := rfl
      rw [hlive, liveFlags_register, h.capture]
    stitchLength := by
      intro cols hst
      obtain ⟨cols₀, hcols₀, rfl⟩ := Option.map_eq_some_iff.mp hst
      rw [registerStitch_length]
      exact h.stitchLength cols₀ hcols₀
    stitch := hstitch }

/-- One encoded group at the leader: the commit fails with the write of its body, or
brings the writers in step again. -/
theorem InStep.commit (hfollow : FollowAll ws.hasPrev ws.coltypes ws.cols fs ss es) (hnrows : 0 < base.nrows)
    (henc : enc = ⟨SealedRg.gated (liveFlags ws) base, trackersOf es fs⟩) :
    (∀ e, ws.part.append base.body = .error e →
      ∀ rest, Actors.settle recvMsg (commitActions wp enc ++ rest) wp threads = none) ∧
    ∀ fileOff part, ws.part.append base.body = .ok (fileOff, part) →
      ∃ wp' threads', InStep plan (serialNext ws ss base fileOff part) wp' threads' ∧
        wp'.stitchPool = wp.stitchPool ∧
        ∀ rest, Actors.settle recvMsg (commitActions wp enc ++ rest) wp threads =
          Actors.settle recvMsg rest wp' threads' := by
  obtain ⟨stitch, threads', hstitch, hsettle⟩ := h.settle_commit enc
  obtain ⟨ps', hps', htrack⟩ := hfollow.commit h.cols
  have hpart : wp.part = ws.part := by rw [h.same]
  have hprev : wp.hasPrev = ws.hasPrev := by rw [h.same]
  have htypes : wp.coltypes = ws.coltypes := by rw [h.same]
  have hrgs : wp.rgs = ws.rgs := by rw [h.same]
  have hxid : wp.xid = ws.xid := by rw [h.same]
  have hbody : enc.sealed.body = base.body := by rw [henc]; rfl
  constructor
  · intro e happend rest
    rw [hsettle, commitEncoded_eq]
    simp only [hpart, hbody, happend]
    rfl
  · intro fileOff part happend
    have htrackers : enc.trackers = trackersOf es fs := by rw [henc]
    have hcols : commitCols ws.hasPrev ws.coltypes wp.cols enc.trackers = .ok ps' := by
      rw [htrackers]
      exact hps'
    have hrg : footerRg enc.sealed fileOff ws.xid = footerRg base fileOff ws.xid := by rw [henc]; rfl
    have hnext := @InStep.next _ _ _ _ h _ _ base fileOff part stitch threads'
      (ws.rgs ++ [footerRg base fileOff ws.xid]) (ws.hasPrev || decide (0 < enc.sealed.nrows)) htrack (by
        have hdicts : enc.sealed.dicts = List.zipWith gate (liveFlags ws) base.dicts := by rw [henc]; rfl
        rw [hdicts] at hstitch
        cases hstitch with
        | inl hinline => exact Or.inl hinline
        | inr hpooled =>
          obtain ⟨assign, cols, hpool, hst, hholds⟩ := hpooled
          exact Or.inr ⟨assign, _, hpool, by rw [serialNext, hst]; rfl, hholds⟩)
      rfl (by
        have : 0 < enc.sealed.nrows := by rw [henc]; exact hnrows
        simp [this])
    refine ⟨_, threads', hnext, rfl, fun rest => ?_⟩
    rw [hsettle, commitEncoded_eq]
    simp only [hpart, hbody, happend, run_ok_bind, hprev, htypes, hcols, hrgs, hxid, hrg]
    rfl

end

variable (host) in
/-- What the leader does for the encoded groups, message by message. -/
theorem InStep.groups (h : InStep plan ws wp threads) (gs : List (List Row)) (hne : ∀ g ∈ gs, g ≠ []) :
    (∀ e, gs.foldlM (sealGroup host) ws = .error e → ∀ encs, gs.mapM (encodeRg host plan) = .ok encs →
      Actors.settle recvMsg (encs.flatMap (commitActions wp)) wp threads = none) ∧
    ∀ ws', gs.foldlM (sealGroup host) ws = .ok ws' → ∃ encs wp' threads', gs.mapM (encodeRg host plan) = .ok encs ∧
      Actors.settle recvMsg (encs.flatMap (commitActions wp)) wp threads = some (wp', threads') ∧
      InStep plan ws' wp' threads' := by
  induction gs generalizing ws wp threads with
  | nil =>
    constructor
    · nofun
    · intro ws' hws'
      cases hws'
      exact ⟨[], wp, threads, rfl, rfl, h⟩
  | cons g gs ih =>
    obtain ⟨r, rows, rfl⟩ := exists_cons_of_ne_nil (hne g (by simp))
    have hactions : ∀ {wp' : CbWriter}, wp'.stitchPool = wp.stitchPool →
        ∀ encs : List EncodedRg, encs.flatMap (commitActions wp) = encs.flatMap (commitActions wp') := by
      intro wp' hpool encs
      have : commitActions wp = commitActions wp' := by
        funext enc
        rw [commitActions, commitActions, hpool]
      rw [this]
    simp only [foldlM_cons, mapM_cons]
    cases h.group_cases host r rows with
    | inl hfail =>
      obtain ⟨⟨e, he⟩, e', he'⟩ := hfail
      rw [he, he']
      constructor
      · nofun
      · intro ws' hws'
        cases hws'
    | inr hgroup =>
      obtain ⟨ss, es, fs, base, hfollow, hnrows, henc, hseal⟩ := hgroup
      obtain ⟨hcerr, hcok⟩ := h.commit hfollow hnrows rfl
      rw [henc, hseal, run_ok_bind]
      cases happend : ws.part.append base.body with
      | error e =>
        constructor
        · intro _ _ encs hencs
          obtain ⟨encs', -, hencs⟩ := run_bind_eq_ok.mp hencs
          cases hencs
          exact hcerr e happend _
        · intro ws' hws'
          cases hws'
      | ok r =>
        obtain ⟨fileOff, part⟩ := r
        obtain ⟨wp₁, threads₁, hstep, hpool, hsettle⟩ := hcok fileOff part happend
        obtain ⟨iherr, ihok⟩ := ih hstep (forall_mem_cons.mp hne).2
        constructor
        · intro e he encs hencs
          obtain ⟨encs', hencs', hencs⟩ := run_bind_eq_ok.mp hencs
          cases hencs
          rw [flatMap_cons, hsettle, hactions hpool]
          exact iherr e he encs' hencs'
        · intro ws' hws'
          obtain ⟨encs, wp', threads', hencs, hrun, hstep'⟩ := ihok ws' hws'
          refine ⟨⟨SealedRg.gated (liveFlags ws) base, trackersOf es fs⟩ :: encs, wp', threads', ?_, ?_, hstep'⟩
          · rw [hencs]
            rfl
          · rw [flatMap_cons, hsettle, hactions hpool]
            exact hrun

/-- A column without a map for every row group writes nothing. -/
theorem foldlM_write_filter (ncols nrgs : Nat) (live : List (Nat × StitchCol)) (out : StitchOut) :
    (finalizeCols live).foldlM (StitchOut.write ncols nrgs) out =
      (finalizeCols (live.filter (fun p => p.2.rgMaps.length = nrgs))).foldlM (StitchOut.write ncols nrgs) out := by
  induction live generalizing out with
  | nil => rfl
  | cons p live ih =>
    have hcons : ∀ ps : List (Nat × StitchCol), finalizeCols (p :: ps) =
        (p.2.finalize.map (fun f => (p.1, f))).toList ++ finalizeCols ps := by
      intro ps
      rw [finalizeCols, filterMap_cons]
      cases p.2.finalize <;> rfl
    by_cases hlen : p.2.rgMaps.length = nrgs
    · rw [filter_cons_of_pos (by simpa using hlen), hcons, hcons, foldlM_append, foldlM_append]
      apply run_bind_congr
      intro out' _
      exact ih out'
    · rw [filter_cons_of_neg (by simpa using hlen), hcons, foldlM_append]
      have hskip : (p.2.finalize.map (fun f => (p.1, f))).toList.foldlM (StitchOut.write ncols nrgs) out =
          .ok out := by
        cases hf : p.2.finalize with
        | none => rfl
        | some f =>
          have : f.2.length ≠ nrgs := by rwa [finalize_blobs hf]
          simp only [Option.map_some, Option.toList_some, foldlM_cons, StitchOut.write, ne_eq, this]
          rfl
      rw [hskip]
      exact ih out

/-- Writers in step publish the same part. -/
theorem InStep.finish_eq (h : InStep plan ws wp threads) :
    wp.finish host threads = ws.finishWith host (ws.finalized []) := by
  have hsorter : wp.sorter = none := by rw [h.same]; exact h.sorter
  have hnbuf : wp.nbuf = 0 := by rw [h.same]; exact h.nbuf
  have hseal : wp.sealRg host = .ok wp := by rw [CbWriter.sealRg, if_pos hnbuf]
  rw [finish_of_no_sorter hsorter, hseal, run_ok_bind]
  have hcongr : ∀ finalized, wp.finishWith host finalized = ws.finishWith host finalized := by
    intro finalized
    rw [h.same]
    simp [CbWriter.finishWith, CbWriter.footer, CbWriter.header, h.cols.ndv, h.cols.sorted]
  rw [hcongr]
  cases h.stitch with
  | inl hinline =>
    have hfin : wp.finalized threads = ws.finalized [] := by
      have hrgs : wp.rgs = ws.rgs := by rw [h.same]
      rw [CbWriter.finalized, CbWriter.finalized, hinline.1, hinline.2, h.noPool, hrgs]
      cases ws.stitch <;> rfl
    rw [hfin]
  | inr hpooled =>
    obtain ⟨assign, cols, hpool, hst, hholds⟩ := hpooled
    have hjoin : wp.finalized threads = finalizeCols (liveFrom 0 cols) := by
      rw [CbWriter.finalized, hpool]
      exact joinResults_eq hholds.perm
    have hserial : ws.finalized [] =
        finalizeCols ((liveFrom 0 cols).filter (fun p => p.2.rgMaps.length = ws.rgs.length)) := by
      rw [CbWriter.finalized, h.noPool, hst]
    rw [hjoin, hserial, CbWriter.finishWith, CbWriter.finishWith, foldlM_write_filter]

end Step

section Open

variable {host : Host}

/-- A freshly opened writer. -/
structure Opened (w : CbWriter) : Prop where
  nbuf : w.nbuf = 0
  sorter : w.sorter = none
  draining : w.drainingClustered = false
  noPool : w.stitchPool = none
  builders : List.Forall₂ (fun t col => ColState.builder col = .fresh t) w.coltypes w.cols
  ndv : ∃ b, ∀ col ∈ w.cols, col.ndv.isSome = b
  sorted : ∃ b, ∀ col ∈ w.cols, col.sorted.isSome = b
  stitchLength : ∀ cols, w.stitch = some cols → cols.length = w.coltypes.length

variable (host) in
theorem opened_blank (file : List UInt8) (xid : Nat) (coltypes : List ColType) (fingerprint : Nat)
    (opts : CbWriterOpts) : Opened (blankWriter host file xid coltypes fingerprint opts) where
  nbuf := rfl
  sorter := rfl
  draining := rfl
  noPool := rfl
  builders := by
    rw [blankWriter, forall₂_map_right_iff]
    exact forall₂_same.mpr (fun t _ => rfl)
  ndv := ⟨true, by
    intro col hcol
    obtain ⟨t, -, rfl⟩ := mem_map.mp hcol
    rfl⟩
  sorted := ⟨true, by
    intro col hcol
    obtain ⟨t, -, rfl⟩ := mem_map.mp hcol
    rfl⟩
  stitchLength := by
    intro cols hcols
    simp only [blankWriter] at hcols
    split_ifs at hcols
    cases hcols
    simp [blankWriter]

theorem loadBlobs_length (h : loadBlobs file dir = .ok (some hlls)) : hlls.length = dir.length := by
  induction dir generalizing hlls with
  | nil =>
    cases h
    rfl
  | cons e dir ih =>
    rw [loadBlobs] at h
    split_ifs at h
    · cases h
    · obtain ⟨blob, -, h⟩ := run_bind_eq_ok.mp h
      split at h
      · cases h
      · obtain ⟨rest, hrest, h⟩ := run_bind_eq_ok.mp h
        cases rest with
        | none => cases h
        | some =>
          cases h
          rw [length_cons, length_cons, ih hrest]

theorem opened_continueFrom (h : Opened w) (hndv : ∀ hlls, ndv = some hlls → hlls.length = w.cols.length) :
    Opened (w.continueFrom ndv) where
  nbuf := h.nbuf
  sorter := h.sorter
  draining := h.draining
  noPool := h.noPool
  builders := by
    apply forall₂_iff_get.mpr
    obtain ⟨hlen, hall⟩ := forall₂_iff_get.mp h.builders
    refine ⟨by simpa [CbWriter.continueFrom] using hlen, fun i h₁ h₂ => ?_⟩
    have := hall i h₁ (by simpa [CbWriter.continueFrom] using h₂)
    simpa [CbWriter.continueFrom] using this
  ndv := by
    refine ⟨ndv.isSome, fun col hcol => ?_⟩
    obtain ⟨i, hi, rfl⟩ := mem_mapIdx.mp hcol
    cases ndv with
    | none => rfl
    | some hlls => simp [hndv hlls rfl, hi]
  sorted := ⟨false, by
    intro col hcol
    obtain ⟨i, hi, rfl⟩ := mem_mapIdx.mp hcol
    rfl⟩
  stitchLength := by
    nofun

theorem takeOver_opened (h : Opened w) (ht : w.takeOver host f = .ok w') : Opened w' := by
  rw [CbWriter.takeOver] at ht
  split_ifs at ht
  · cases ht
    exact h
  · obtain ⟨ndv, hndv, ht⟩ := run_bind_eq_ok.mp ht
    cases ht
    apply opened_continueFrom h
    rintro hlls rfl
    rw [loadNdvRegs] at hndv
    split_ifs at hndv with hoff
    · cases hndv
    · rw [loadBlobs_length hndv, not_not.mp (not_or.mp hoff).2]
      exact h.builders.length_eq

/-- Whatever the file holds, an opened writer is a fresh one. -/
theorem openWriterInner_opened (h : openWriterInner host file xid frozenOk coltypes fingerprint opts = .ok w) :
    Opened w := by
  have hblank := opened_blank host file xid coltypes fingerprint opts
  have hinit : ∀ w', (blankWriter host file xid coltypes fingerprint opts).initHeader frozenOk = .ok w' →
      Opened w' := by
    intro w' hw'
    cases hw'
    exact ⟨hblank.nbuf, hblank.sorter, hblank.draining, hblank.noPool, hblank.builders, hblank.ndv,
      hblank.sorted, hblank.stitchLength⟩
  rw [openWriterInner] at h
  split_ifs at h
  · exact hinit w h
  · obtain ⟨hdr, -, h⟩ := run_bind_eq_ok.mp h
    obtain ⟨found, -, h⟩ := run_bind_eq_ok.mp h
    split at h
    · exact hinit w h
    · split_ifs at h
      · obtain ⟨⟨f, footerEnd⟩, -, h⟩ := run_bind_eq_ok.mp h
        obtain ⟨w₁, hw₁, h⟩ := run_bind_eq_ok.mp h
        have h₁ := takeOver_opened hblank hw₁
        cases h
        exact ⟨h₁.nbuf, h₁.sorter, h₁.draining, h₁.noPool, h₁.builders, h₁.ndv, h₁.sorted, h₁.stitchLength⟩
      · cases h
        exact hblank

theorem TrackAll.refl (h : List.Forall₂ (Starts plan) ts ss) : TrackAll plan ts ss ss := by
  induction h with
  | nil => exact .nil
  | cons hstart _ ih => exact .cons ⟨hstart, hstart.builder, rfl, rfl, fun _ => by simp [SamePrev]⟩ ih

theorem all_of_uniform {l : List α} {p : α → Bool} {b : Bool} (h : ∀ a ∈ l, p a = b) {a : α}
    (ha : a ∈ l) : p a = l.all p := by
  cases b with
  | true => rw [h a ha, all_eq_true.mpr h]
  | false =>
    have hnot : l.all p = false := by
      apply Bool.eq_false_iff.mpr
      intro hall
      have := all_eq_true.mp hall a ha
      rw [h a ha] at this
      cases this
    rw [h a ha, hnot]

/-- An opened writer has a plan and is in step with itself. -/
theorem Opened.inStep (h : Opened w) : ∃ plan, parallelIngestPlan w = some plan ∧ InStep plan w w [] := by
  have hplan : ∃ plan, parallelIngestPlan w = some plan := by simp [parallelIngestPlan, h.sorter]
  obtain ⟨plan, hplan⟩ := hplan
  refine ⟨plan, hplan, ?_⟩
  simp only [parallelIngestPlan, h.sorter, Option.isSome_none, Bool.false_eq_true, if_false,
    Option.some.injEq] at hplan
  subst hplan
  obtain ⟨bn, hndv⟩ := h.ndv
  obtain ⟨bs, hsorted⟩ := h.sorted
  refine ⟨rfl, h.nbuf, h.sorter, h.draining, h.noPool, TrackAll.refl ?_, rfl, ?_, rfl, rfl, rfl,
    h.stitchLength, Or.inl ⟨h.noPool, rfl⟩⟩
  · obtain ⟨hlen, hbuilder⟩ := forall₂_iff_get.mp h.builders
    apply forall₂_iff_get.mpr ⟨hlen, fun i h₁ h₂ => ?_⟩
    have hmem := get_mem w.cols ⟨i, h₂⟩
    exact ⟨hbuilder i h₁ h₂, all_of_uniform hndv hmem, all_of_uniform hsorted hmem⟩
  · simp [CbWriter.rgFlags, h.draining]

/-- Handing the interners to a pool keeps the leader in step. -/
theorem InStep.install (h : InStep plan w w []) (n : Nat) :
    InStep plan w (installStitchPool w n).1 (installStitchPool w n).2 := by
  cases hst : w.stitch with
  | none => simpa [installStitchPool, h.noPool, hst] using h
  | some cols =>
    simp only [installStitchPool, h.noPool, hst]
    split_ifs with hrefuse
    · simpa [h.noPool, hst] using h
    · have hn : 0 < min (max 1 (min n 16)) (cols.filter Option.isSome).length := by omega
      exact
        { h with
          same := rfl
          stitch := Or.inr ⟨_, cols, rfl, hst, holds_dealt hn cols⟩ }

theorem rgGroups_ne_nil (rows : List Row) : ∀ g ∈ rgGroups rows, g ≠ [] := by
  induction rows using rgGroups.induct with
  | case1 => simp [rgGroups]
  | case2 r rest ih =>
    intro g hg
    rw [rgGroups] at hg
    cases hg with
    | head => simp [rgRows]
    | tail _ hg => exact ih g hg

/-- The leader with its pool, at the start. -/
theorem loadConfig_spec (h : InStep plan w w []) (pool : Option Nat) : ∃ wp threads, InStep plan w wp threads ∧
      ∀ encs, (loadConfig w pool encs).outcome recvMsg =
        Actors.settle recvMsg (encs.flatMap (commitActions wp)) wp threads := by
  have hdrained : ∀ threads : List (List (Nat × StitchCol)),
      (threads.map (fun cols => (⟨cols, []⟩ : Actors.Worker _ StitchMsg))).map
        (Actors.Worker.drained recvMsg) = threads := by
    intro threads
    rw [map_map]
    exact map_id threads
  cases pool with
  | none => exact ⟨w, [], h, fun encs => rfl⟩
  | some n =>
    refine ⟨_, _, h.install n, fun encs => ?_⟩
    simp [loadConfig, Actors.Config.outcome, hdrained]

/-- Encoding each group on its own and committing the results in order publishes the
part of the serial writer, in every interleaving of the pool's threads with the leader:
each step uses up work, and a run that cannot go on has published. Conversely only that
part can be published. -/
def PublishesSerialPart (host : Host) (w : CbWriter) (rows : List Row) (pool : Option Nat)
    (plan : ParallelIngestPlan) : Prop :=
  (∀ part, serialLoad host w rows = .ok part → ∃ encs, (rgGroups rows).mapM (encodeRg host plan) = .ok encs ∧
      ∀ c, Actors.Steps recvMsg (loadConfig w pool encs) c → (∀ c', Actors.Step recvMsg c c' → c'.work < c.work) ∧
        ((c.Done ∧ c.leader.finish host (c.workers.map Actors.Worker.state) = .ok part) ∨
          ∃ c', Actors.Step recvMsg c c')) ∧
  (∀ encs c part, (rgGroups rows).mapM (encodeRg host plan) = .ok encs →
    Actors.Steps recvMsg (loadConfig w pool encs) c → c.Done →
    c.leader.finish host (c.workers.map Actors.Worker.state) = .ok part →
    serialLoad host w rows = .ok part)

/-- Parallel ingest into any part that opens is serial ingest, for all rows, options
and column types, with and without the pool. -/
theorem parallelLoad_eq_serialLoad (host : Host) (file : List UInt8) (xid : Nat) (frozenOk : Bool)
    (coltypes : List ColType) (fingerprint : Nat) (opts : CbWriterOpts) (w : CbWriter)
    (hopen : openWriterInner host file xid frozenOk coltypes fingerprint opts = .ok w)
    (rows : List Row) (pool : Option Nat) :
    ∃ plan, parallelIngestPlan w = some plan ∧ PublishesSerialPart host w rows pool plan := by
  have hopened := openWriterInner_opened hopen
  obtain ⟨plan, hplan, hself⟩ := hopened.inStep
  obtain ⟨wp, threads, hstep, hconfig⟩ := loadConfig_spec hself pool
  obtain ⟨hfail, hgroups⟩ := hstep.groups host (rgGroups rows) (rgGroups_ne_nil rows)
  have hserial := serialLoad_eq host w hopened.nbuf hopened.sorter rows
  refine ⟨plan, hplan, fun part hpart => ?_, fun encs c part hencs hc hdone hfinish => ?_⟩
  · rw [hserial] at hpart
    obtain ⟨ws', hws', hpart⟩ := run_bind_eq_ok.mp hpart
    obtain ⟨encs, wp', threads', hencs, hrun, hstep'⟩ := hgroups ws' hws'
    refine ⟨encs, hencs, fun c hc => ⟨fun c' hc' => hc'.work_lt, ?_⟩⟩
    have houtcome : c.outcome recvMsg = some (wp', threads') := by
      rw [hc.outcome_eq, hconfig, hrun]
    cases Actors.Config.progress recvMsg houtcome with
    | inr hnext => exact Or.inr hnext
    | inl hdone =>
      have hend := hdone.outcome_eq recvMsg
      rw [houtcome, Option.some.injEq, Prod.mk.injEq] at hend
      rw [← hend.1, ← hend.2, hstep'.finish_eq]
      exact Or.inl ⟨hdone, hpart⟩
  · have hend := hdone.outcome_eq recvMsg
    rw [hc.outcome_eq, hconfig] at hend
    rw [hserial]
    cases hws : (rgGroups rows).foldlM (sealGroup host) w with
    | error e =>
      rw [hfail e hws encs hencs] at hend
      cases hend
    | ok ws' =>
      obtain ⟨encs', wp', threads', hencs', hrun, hstep'⟩ := hgroups ws' hws
      rw [hencs] at hencs'
      cases hencs'
      rw [hrun, Option.some.injEq, Prod.mk.injEq] at hend
      rw [← hend.1, ← hend.2, hstep'.finish_eq] at hfinish
      exact hfinish

/-- A process whose compressors store. -/
def storingHost : Host where
  lib := ColumnarCodec.storing
  hashBytes := fun b => BitVec.ofNat 64 b.length
  estimate := fun _ => 1
  ingestSort := fun _ rows => .ok rows
  stitchWrite := true
  ndvRegs := true
  dictFrames := false
  dictFrameTarget := 131072

theorem parallelLoad_eq_serialLoad_fresh_part :
    ∃ w, openWriterInner storingHost [] 7 true [.i32, .text] 42 ⟨[], [], [.lz4, .auto], 3, [true, true]⟩ = .ok w ∧
      ∃ plan, parallelIngestPlan w = some plan ∧ PublishesSerialPart storingHost w
        [⟨[.word 5, .ptr (varlenaImage [104, 105])], [false, false]⟩] (some 4) plan :=
  ⟨_, rfl, parallelLoad_eq_serialLoad storingHost [] 7 true [.i32, .text] 42
    ⟨[], [], [.lz4, .auto], 3, [true, true]⟩ _ rfl _ (some 4)⟩

end Open

end ColumnarParallelIngest
