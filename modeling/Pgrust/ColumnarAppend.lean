import Pgrust.ColumnarChunkView
import Pgrust.ColumnarHll

/-!
# Rows into column builders

Varlena images, the per-column builders of a row group and `append_row_into`,
which the serial writer and the parallel chunk encoder share.
-/
namespace ColumnarAppend

open ByteImage ColumnarFormat ColumnarChunkView ColumnarHll List

inductive SqlState where
  | internalError
  | featureNotSupported
  deriving DecidableEq, Repr

structure PgError where
  message : String
  sqlstate : SqlState
  deriving DecidableEq, Repr

/-- How a call stops without a result: an error return or a panic. -/
inductive Stop where
  | err (e : PgError)
  | panicked
  deriving DecidableEq, Repr

abbrev Run := Except Stop

variable {α : Type} {hashBytes : List UInt8 → BitVec 64} {t : ColType} {hasPrev : Bool}

@[simp] theorem run_ok_bind {β : Type} (a : α) (f : α → Run β) : ((.ok a : Run α) >>= f) = f a := rfl

theorem run_bind_eq_ok {β : Type} {x : Run α} {f : α → Run β} {b : β} :
    (x >>= f) = .ok b ↔ ∃ a, x = .ok a ∧ f a = .ok b := by
  constructor
  · intro h
    cases x with
    | ok a => exact ⟨a, rfl, h⟩
    | error => cases h
  · rintro ⟨a, rfl, h⟩
    exact h

/-- A computation of the encoders, where `none` is a panic. -/
def orPanic {α : Type} : Option α → Run α
  | some a => .ok a
  | none => .error .panicked

@[simp] theorem orPanic_eq_ok : orPanic x = .ok a ↔ x = some a := by
  cases x <;> simp [orPanic]

def raise (message : String) (sqlstate : SqlState) : Stop := .err ⟨message, sqlstate⟩

def varlenaImgHdr : Nat := 4

/-- A four-byte uncompressed header, the bytes, padding to four. -/
def pushVarlenaImage (body s : List UInt8) : List UInt8 :=
  padTo 4 (body ++ putU32 ((varlenaImgHdr + s.length) * 4) ++ s)

def varlenaImage (s : List UInt8) : List UInt8 := pushVarlenaImage [] s

/-- The payload bytes of an in-line varlena; a read outside its memory is a panic. -/
def varlenaBytes : Datum → Run (List UInt8)
  | .word _ => .error .panicked
  | .ptr mem =>
    match mem[0]? with
    | none => .error .panicked
    | some b0 =>
      if b0 &&& 0x01 ≠ 0 then
        if b0 = 0x01 then .error (raise "cbstore: TOASTed input value; load via COPY" .internalError)
        else orPanic (slice mem 1 ((b0 >>> 1 &&& 0x7f).toNat - 1))
      else if b0 &&& 0x02 ≠ 0 then
        .error (raise "cbstore: compressed input value; load via COPY" .internalError)
      else do
        let word ← orPanic (getU32 mem 0)
        if word / 4 < 4 then .error .panicked else orPanic (slice mem 4 (word / 4 - 4))

/-- Per-row byte ranges into `blob`, both halves `u32`. -/
structure TextBuilder where
  offs : List (Nat × Nat)
  blob : List UInt8
  deriving DecidableEq, Repr

def TextBuilder.empty : TextBuilder := ⟨[], []⟩

/-- The blob length is narrowed to `u32` without a check. -/
def TextBuilder.push (tb : TextBuilder) (bytes : List UInt8) : TextBuilder :=
  ⟨tb.offs ++ [(tb.blob.length % 2 ^ 32, bytes.length % 2 ^ 32)], tb.blob ++ bytes⟩

inductive ColBuilder where
  | int (vals : List I64)
  | text (tb : TextBuilder)
  deriving DecidableEq, Repr

def ColBuilder.fresh (t : ColType) : ColBuilder := if t.isText then .text .empty else .int []

/-- One column of a writer: its builder, the distinct-count sketch and the order
tracker with the previous value, each where the part tracks it. -/
structure ColState where
  builder : ColBuilder
  ndv : Option Hll
  sorted : Option Bool
  prevInt : I64
  prevText : List UInt8

structure Row where
  values : List Datum
  isnull : List Bool

def intValue : ColType → Datum → Run I64
  | .i16, .word v => .ok ((v.setWidth 16).signExtend 64)
  | .i32, .word v | .date, .word v => .ok ((v.setWidth 32).signExtend 64)
  | .i64, .word v | .timestamp, .word v => .ok v
  | _, _ => .error .panicked

section Append

variable (hashBytes : List UInt8 → BitVec 64)

def ColState.addInt (col : ColState) (vals : List I64) (hasPrev : Bool) (v : I64) : ColState where
  builder := .int (vals ++ [v])
  ndv := col.ndv.map (·.addI64 v)
  sorted := col.sorted.map (fun s => s && !(hasPrev && v.slt col.prevInt))
  prevInt := if col.sorted.isSome then v else col.prevInt
  prevText := col.prevText

/-- The text tracker keeps its last value only while the column is sorted. -/
def ColState.addText (col : ColState) (tb : TextBuilder) (hasPrev : Bool) (bytes : List UInt8) : ColState where
  builder := .text (tb.push bytes)
  ndv := col.ndv.map (·.addBytes hashBytes bytes)
  sorted := col.sorted.map (fun s => s && !(hasPrev && bytes < col.prevText))
  prevInt := col.prevInt
  prevText := if col.sorted = some true ∧ ¬ (hasPrev = true ∧ bytes < col.prevText) then bytes else col.prevText

def appendColumn (t : ColType) (hasPrev : Bool) (col : ColState) (value : Datum) (isnull : Bool) : Run ColState :=
  if isnull then .error (raise "cbstore does not support NULL values" .featureNotSupported)
  else
    match col.builder with
    | .int vals => do
      let v ← intValue t value
      .ok (col.addInt vals hasPrev v)
    | .text tb => do
      let bytes ← varlenaBytes value
      .ok (col.addText hashBytes tb hasPrev bytes)

/-- One row, column by column; a missing value or flag is an index out of range. -/
def appendRowInto (hasPrev : Bool) : List ColType → List ColState → List Datum → List Bool → Run (List ColState)
  | [], cols, _, _ => .ok cols
  | t :: ts, col :: cols, v :: vs, n :: ns => do
    let col ← appendColumn hashBytes t hasPrev col v n
    let cols ← appendRowInto hasPrev ts cols vs ns
    .ok (col :: cols)
  | _, _, _, _ => .error .panicked

/-- Rows one after the other, as `append_row` feeds them: after the first one there
is a previous row. -/
def appendRows (ts : List ColType) : Bool → List ColState → List Row → Run (List ColState)
  | _, cols, [] => .ok cols
  | hasPrev, cols, r :: rows => do
    let cols ← appendRowInto hashBytes hasPrev ts cols r.values r.isnull
    appendRows ts true cols rows

end Append

@[simp] theorem varlenaImage_length (s : List UInt8) :
    (varlenaImage s).length = align4 (varlenaImgHdr + s.length) := by
  rw [varlenaImage, pushVarlenaImage, align4]
  simp [varlenaImgHdr]

theorem pushVarlenaImage_eq (hbody : 4 ∣ body.length) (s : List UInt8) :
    pushVarlenaImage body s = body ++ varlenaImage s := by
  obtain ⟨q, hq⟩ := hbody
  simp only [varlenaImage, pushVarlenaImage, padTo, nil_append, length_append, putU32_length, hq, append_assoc]
  have hmod : (4 * q + (4 + s.length)) % 4 = (4 + s.length) % 4 := by omega
  rw [hmod]

theorem foldl_pushVarlenaImage (hbody : 4 ∣ body.length) (strings : List (List UInt8)) :
    strings.foldl pushVarlenaImage body = body ++ (strings.map varlenaImage).flatten := by
  induction strings generalizing body with
  | nil => simp
  | cons s strings ih =>
    have hnext : 4 ∣ (body ++ varlenaImage s).length := by
      rw [length_append, varlenaImage_length]
      exact Nat.dvd_add hbody (alignTo_dvd 4 _)
    rw [foldl_cons, pushVarlenaImage_eq hbody, ih hnext, map_cons, flatten_cons, append_assoc]

/-- A pointer at a stored image reads its string back. -/
theorem varlenaBytes_image (hs : s.length + 4 < 2 ^ 30) (rest : List UInt8) :
    varlenaBytes (.ptr (varlenaImage s ++ rest)) = .ok s := by
  have hsits : Sits (varlenaImage s ++ rest) 0 (putU32 ((4 + s.length) * 4) ++ s) := by
    exact ((sits_self _).append_right _).append_right _
  have hword : getU32 (varlenaImage s ++ rest) 0 = some ((4 + s.length) * 4) := getU32_of_sits hsits.left (by omega)
  have hbytes := hsits.right.slice
  rw [putU32_length] at hbytes
  -- the low byte of the header is a multiple of four, so neither tag bit is set
  have hfirst : (varlenaImage s ++ rest)[0]? = some (UInt8.ofNat ((4 + s.length) * 4)) := by
    have h0 := (hsits.left : Sits _ 0 (UInt8.ofNat ((4 + s.length) * 4) ::
      leBytes 3 ((4 + s.length) * 4 / 256)))
    exact getElem?_of_sits (Sits.left h0)
  have hlow : UInt8.ofNat ((4 + s.length) * 4) &&& 3 = 0 := by
    apply UInt8.toNat_inj.mp
    have hthree : (3 : UInt8).toNat = 2 ^ 2 - 1 := rfl
    rw [UInt8.toNat_and, UInt8.toNat_ofNat', hthree, Nat.and_two_pow_sub_one_eq_mod, UInt8.toNat_zero]
    omega
  have hone : UInt8.ofNat ((4 + s.length) * 4) &&& 1 = 0 := by
    rw [show (1 : UInt8) = 3 &&& 1 from rfl, ← UInt8.and_assoc, hlow, UInt8.zero_and]
  have htwo : UInt8.ofNat ((4 + s.length) * 4) &&& 2 = 0 := by
    rw [show (2 : UInt8) = 3 &&& 2 from rfl, ← UInt8.and_assoc, hlow, UInt8.zero_and]
  simp only [varlenaBytes, hfirst, hone, htwo, ne_eq, not_true_eq_false, hword, orPanic, run_ok_bind]
  have hlen : (4 + s.length) * 4 / 4 = 4 + s.length := by omega
  have hge : ¬ 4 + s.length < 4 := by omega
  have hsub : 4 + s.length - 4 = s.length := by omega
  simp only [hlen, hge, if_false, hsub]
  rw [hbytes]

/-- A varlena carries fewer than `2 ^ 30` bytes with its header. -/
theorem varlenaBytes_length {d : Datum} {s : List UInt8} (h : varlenaBytes d = .ok s) : s.length + 4 < 2 ^ 30 := by
  cases d with
  | word => cases h
  | ptr =>
    simp only [varlenaBytes] at h
    split at h
    · cases h
    · rename_i b0 _
      split_ifs at h
      · have hlen := slice_length (orPanic_eq_ok.mp h)
        have := (b0 >>> 1 &&& 0x7f).toNat_lt
        omega
      · obtain ⟨word, hword, h⟩ := run_bind_eq_ok.mp h
        split_ifs at h
        have hlen := slice_length (orPanic_eq_ok.mp h)
        have hlt : word < 2 ^ 32 := by
          obtain ⟨m, hm, rfl⟩ := Option.map_eq_some_iff.mp (orPanic_eq_ok.mp hword)
          have := leNat_lt m
          rw [slice_length hm] at this
          omega
        omega

/-- The builder that has taken `strings`. -/
def TextBuilder.of (strings : List (List UInt8)) : TextBuilder := strings.foldl .push .empty

variable {col : ColState}

theorem appendColumn_text (hb : col.builder = .text tb) (hv : varlenaBytes value = .ok bytes)
    (h : appendColumn hashBytes t hasPrev col value isnull = .ok col') :
    col'.builder = .text (tb.push bytes) := by
  simp only [appendColumn, hb, hv] at h
  split_ifs at h
  cases h
  rfl

/-- The columns of a row are appended one by one and apart. -/
theorem appendRowInto_get {c : Nat} (h : appendRowInto hashBytes hasPrev ts cols vs ns = .ok cols')
    (ht : ts[c]? = some t) (hcol : cols[c]? = some col) :
    ∃ v n col', vs[c]? = some v ∧ ns[c]? = some n ∧ cols'[c]? = some col' ∧
      appendColumn hashBytes t hasPrev col v n = .ok col' := by
  induction ts generalizing cols cols' vs ns c with
  | nil => simp at ht
  | cons t' ts ih =>
    match cols, vs, ns, h with
    | c₀ :: cols, v :: vs, n :: ns, h =>
      obtain ⟨col', hcol', h⟩ := run_bind_eq_ok.mp h
      obtain ⟨rest, hrest, h⟩ := run_bind_eq_ok.mp h
      cases h
      cases c with
      | zero =>
        simp only [getElem?_cons_zero, Option.some.injEq] at ht hcol
        subst ht hcol
        exact ⟨v, n, col', rfl, rfl, rfl, hcol'⟩
      | succ =>
        simp only [getElem?_cons_succ] at ht hcol ⊢
        exact ih hrest ht hcol

/-- Rows that were all accepted leave in a text builder the strings of its column. -/
theorem appendRows_text {ts : List ColType} {cols cols' : List ColState} {rows : List Row} {c : Nat}
    {tb : TextBuilder} {strings : List (List UInt8)}
    (h : appendRows hashBytes ts hasPrev cols rows = .ok cols') (ht : ts[c]? = some t)
    (hcol : cols[c]? = some col) (hb : col.builder = .text tb)
    (hs : rows.map (fun r => r.values[c]?.map varlenaBytes) = strings.map (fun s => some (.ok s))) :
    ∃ col', cols'[c]? = some col' ∧ col'.builder = .text (strings.foldl .push tb) := by
  induction rows generalizing hasPrev cols col tb strings with
  | nil =>
    cases strings with
    | nil =>
      cases h
      exact ⟨col, hcol, hb⟩
    | cons => simp at hs
  | cons r rows ih =>
    cases strings with
    | nil => simp at hs
    | cons =>
      simp only [map_cons, List.cons.injEq] at hs
      obtain ⟨next, hnext, h⟩ := run_bind_eq_ok.mp h
      obtain ⟨v, n, col', hv, -, hcol', happ⟩ := appendRowInto_get hnext ht hcol
      rw [hv, Option.map_some, Option.some.injEq] at hs
      rw [foldl_cons]
      exact ih h hcol' (appendColumn_text hb hs.1 happ) hs.2

end ColumnarAppend
