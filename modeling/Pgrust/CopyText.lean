import Mathlib.Data.List.Induction

/-!
Text-format COPY input as a sequence of lines, apart from how it is buffered: which bytes end a
line once the newline style is known, how the style is found, and what reading a line gives. The
scan cuts a stream into lines and groups of lines one byte at a time; the reader takes the next
line off a stream with full lookahead. A group of complete lines reads the same on its own as in
front of the rest of the stream.
-/

namespace CopyText

open List

inductive EolType
  | unknown
  | nl
  | cr
  | crnl
  deriving DecidableEq, Repr

def lf : UInt8 := 10
def ret : UInt8 := 13
def backslash : UInt8 := 92
def dot : UInt8 := 46

section Escapes

/-- The length of the run of backslashes that ends the bytes. -/
def bsRun (p : List UInt8) : Nat := (p.reverse.takeWhile (· = backslash)).length

/-- The next byte is escaped. -/
def Escaped (p : List UInt8) : Prop := bsRun p % 2 = 1

instance (p : List UInt8) : Decidable (Escaped p) := inferInstanceAs (Decidable (_ = _))

/-- The bytes end in a carriage return that is not escaped. -/
def CrEnd (p : List UInt8) : Prop := p.getLast? = some ret ∧ ¬ Escaped p.dropLast

instance (p : List UInt8) : Decidable (CrEnd p) := inferInstanceAs (Decidable (_ ∧ _))

variable {p : List UInt8} {b : UInt8}

@[simp] theorem bsRun_nil : bsRun [] = 0 := rfl

theorem bsRun_concat (p) (b) : bsRun (p ++ [b]) = if b = backslash then bsRun p + 1 else 0 := by
  split_ifs with hb <;> simp_all [bsRun]

theorem escaped_concat : Escaped (p ++ [b]) ↔ b = backslash ∧ ¬ Escaped p := by
  rw [Escaped, Escaped, bsRun_concat]
  split_ifs with hb
  · simp only [hb, true_and]
    omega
  · simp [hb]

@[simp] theorem not_escaped_nil : ¬ Escaped [] := by decide

theorem crEnd_concat : CrEnd (p ++ [b]) ↔ b = ret ∧ ¬ Escaped p := by
  simp [CrEnd]

@[simp] theorem not_crEnd_nil : ¬ CrEnd [] := by simp [CrEnd]

theorem CrEnd.not_escaped (h : CrEnd p) : ¬ Escaped p := by
  cases p using List.reverseRecOn with
  | nil => exact not_escaped_nil
  | append_singleton =>
    rw [escaped_concat]
    rw [crEnd_concat] at h
    rintro ⟨hb, -⟩
    exact absurd (h.1.symm.trans hb) (by decide)

end Escapes

section Closing

/-- A byte that ends the line whose bytes so far are `p`, once the style is known. -/
def EndsAt : EolType → List UInt8 → UInt8 → Prop
  | .unknown, _, _ => False
  | .nl, p, b => b = lf ∧ ¬ Escaped p
  | .cr, p, b => b = ret ∧ ¬ Escaped p
  | .crnl, p, b => b = lf ∧ CrEnd p

instance : (eol : EolType) → (p : List UInt8) → (b : UInt8) → Decidable (EndsAt eol p b)
  | .unknown, _, _ => inferInstanceAs (Decidable False)
  | .nl, _, _ => inferInstanceAs (Decidable (_ ∧ _))
  | .cr, _, _ => inferInstanceAs (Decidable (_ ∧ _))
  | .crnl, _, _ => inferInstanceAs (Decidable (_ ∧ _))

/-- `w` completes the line begun by `p`: its last byte is the first one that ends it. -/
inductive Closes (eol : EolType) : List UInt8 → List UInt8 → Prop
  | here {p : List UInt8} {b : UInt8} : EndsAt eol p b → Closes eol p [b]
  | more {p w : List UInt8} {b : UInt8} : ¬ EndsAt eol p b → Closes eol (p ++ [b]) w → Closes eol p (b :: w)

section

variable {eol : EolType} {p w : List UInt8} {b : UInt8}

theorem closes_cons :
    Closes eol p (b :: w) ↔ (EndsAt eol p b ∧ w = []) ∨ (¬ EndsAt eol p b ∧ Closes eol (p ++ [b]) w) := by
  constructor
  · intro h
    cases h with
    | here hend => exact .inl ⟨hend, rfl⟩
    | more hend hrest => exact .inr ⟨hend, hrest⟩
  · rintro (⟨hend, rfl⟩ | ⟨hend, hrest⟩)
    · exact .here hend
    · exact .more hend hrest

theorem Closes.length_pos (h : Closes eol p w) : 1 ≤ w.length := by
  cases h with
  | here => exact Nat.le_refl 1
  | more => exact Nat.le_add_left 1 _

theorem Closes.two_le (h : Closes .crnl p w) (hp : ¬ CrEnd p) : 2 ≤ w.length := by
  cases h with
  | here hend => exact absurd hend.2 hp
  | more _ hrest => exact Nat.succ_le_succ hrest.length_pos

theorem not_endsAt_of_escaped (h : Escaped p) : ¬ EndsAt eol p b := by
  cases eol with
  | unknown => exact id
  | nl | cr => exact fun hend => hend.2 h
  | crnl => exact fun hend => hend.2.not_escaped h

theorem not_endsAt_of_ne (hl : b ≠ lf) (hr : b ≠ ret) : ¬ EndsAt eol p b := by
  cases eol with
  | unknown => exact id
  | nl | crnl => exact fun hend => hl hend.1
  | cr => exact fun hend => hr hend.1

/-- Only the bytes of a newline end a line, so any other byte at the front is passed. -/
theorem Closes.tail (h : Closes eol p (b :: w)) (hend : ¬ EndsAt eol p b) : Closes eol (p ++ [b]) w :=
  ((closes_cons.mp h).resolve_left fun hnow => hend hnow.1).2

/-- A backslash takes the next byte with it. -/
theorem Closes.pair (h : Closes eol p (backslash :: w)) (hp : ¬ Escaped p) :
    ∃ c w', w = c :: w' ∧ Closes eol (p ++ [backslash, c]) w' := by
  have hrest := h.tail (not_endsAt_of_ne (by decide) (by decide))
  obtain _ | ⟨c, w'⟩ := w
  · exact absurd hrest.length_pos (by simp)
  · have hesc : Escaped (p ++ [backslash]) := escaped_concat.mpr ⟨rfl, hp⟩
    have hnext := hrest.tail (not_endsAt_of_escaped hesc)
    rw [append_assoc] at hnext
    exact ⟨c, w', rfl, hnext⟩

theorem not_escaped_pair (hp : ¬ Escaped p) (c : UInt8) : ¬ Escaped (p ++ [backslash, c]) := by
  have happ : p ++ [backslash, c] = (p ++ [backslash]) ++ [c] := by simp
  rw [happ, escaped_concat, escaped_concat]
  simp [hp]

theorem not_crEnd_pair (hp : ¬ Escaped p) (c : UInt8) : ¬ CrEnd (p ++ [backslash, c]) := by
  have happ : p ++ [backslash, c] = (p ++ [backslash]) ++ [c] := by simp
  rw [happ, crEnd_concat, escaped_concat]
  simp [hp]

end

/-- A complete line. -/
def IsLine (eol : EolType) (l : List UInt8) : Prop := Closes eol [] l

/-- A line that starts with backslash and dot. -/
def isMarker (l : List UInt8) : Bool := l.take 2 = [backslash, dot]

end Closing

variable {follows : List UInt8 → Prop}

section Reader

/-- The errors a line can raise, by the source's constructors. -/
inductive CopyError
  | literalCr
  | literalNl
  | markerStyle
  | markerNotAlone
  deriving DecidableEq, Repr

/-- What the byte at hand calls for. -/
inductive Act
  | refill
  | fail (e : CopyError)
  | line (n : Nat) (eol : EolType)
  | marker (n : Nat)
  | lastBackslash
  | skip
  | skipPair
  deriving DecidableEq, Repr

/-- A lookahead that runs out of bytes before the end of the input. -/
def Short (avail k : Nat) (hitEof : Bool) : Prop := avail ≤ k ∧ hitEof = false

instance (avail k : Nat) (hitEof : Bool) : Decidable (Short avail k hitEof) := inferInstanceAs (Decidable (_ ∧ _))

section Act

variable (eol : EolType) (byte : Nat → UInt8) (avail : Nat) (hitEof alone : Bool)

/-- The end of `\.`: the newline at offset `k`. -/
def markerTail (k : Nat) : Act :=
  if Short avail k hitEof then .refill
  else if byte k ≠ ret ∧ byte k ≠ lf then .fail .markerNotAlone
  else if (eol = .nl ∧ byte k ≠ lf) ∨ (eol = .crnl ∧ byte k ≠ lf) ∨ (eol = .cr ∧ byte k ≠ ret) then
    .fail .markerStyle
  else if alone = false then .fail .markerNotAlone
  else .marker (k + 1)

def markerAct : Act :=
  if eol = .crnl then
    if Short avail 2 hitEof then .refill
    else if byte 2 = lf then .fail .markerStyle
    else if byte 2 ≠ ret then .fail .markerNotAlone
    else markerTail eol byte avail hitEof alone 3
  else markerTail eol byte avail hitEof alone 2

def crAct : Act :=
  if eol = .unknown ∨ eol = .crnl then
    if Short avail 1 hitEof then .refill
    else if byte 1 = lf then .line 2 .crnl
    else if eol = .crnl then .fail .literalCr
    else .line 1 .cr
  else if eol = .nl then .fail .literalCr
  else .line 1 eol

def lfAct : Act := if eol = .cr ∨ eol = .crnl then .fail .literalNl else .line 1 .nl

def backslashAct : Act :=
  if Short avail 1 hitEof then .refill
  else if avail ≤ 1 then .lastBackslash
  else if byte 1 = dot then markerAct eol byte avail hitEof alone
  else .skipPair

/-- One round of `copy_read_line_text`, text mode. `byte k` is the byte `k` places behind the one at
hand, `avail` how many are loaded, `alone` says that nothing of the line stands before it. -/
def scanAct : Act :=
  if byte 0 = ret then crAct eol byte avail hitEof
  else if byte 0 = lf then lfAct eol
  else if byte 0 = backslash then backslashAct eol byte avail hitEof alone
  else .skip

end Act

/-- What reading one line gives: its bytes with the newline, what follows, and the style. -/
inductive Outcome
  | line (l rest : List UInt8) (eol : EolType)
  | eof (l : List UInt8)
  | marker
  | error (e : CopyError)
  deriving DecidableEq, Repr

/-- The act on a stream that is all there; past its end a zero byte is read. -/
def streamAct (eol : EolType) (acc bytes : List UInt8) : Act :=
  scanAct eol (fun k => bytes.getD k 0) bytes.length true acc.isEmpty

/-- The next line of a stream; `acc` are the bytes of the line already passed. -/
def readText (eol : EolType) (acc : List UInt8) : List UInt8 → Outcome
  | [] => .eof acc
  | c :: rest =>
    match streamAct eol acc (c :: rest) with
    | .skip => readText eol (acc ++ [c]) rest
    | .skipPair =>
      match rest with
      | [] => .eof (acc ++ [c])
      | c₂ :: rest => readText eol (acc ++ [c, c₂]) rest
    | .line n eol' => .line (acc ++ (c :: rest).take n) ((c :: rest).drop n) eol'
    | .marker _ => .marker
    | .fail e => .error e
    | .lastBackslash => .eof (acc ++ [c])
    | .refill => .eof (acc ++ [c])

/-- An ending that does not hand over a line. -/
def Outcome.Final : Outcome → Prop
  | .marker => True
  | .error _ => True
  | _ => False

variable {eol : EolType} {acc rest w : List UInt8} {c c₂ : UInt8}

theorem readText_skip (hr : c ≠ ret) (hl : c ≠ lf) (hb : c ≠ backslash) :
    readText eol acc (c :: rest) = readText eol (acc ++ [c]) rest := by
  have hact : streamAct eol acc (c :: rest) = .skip := by
    simp [streamAct, scanAct, hr, hl, hb]
  rw [readText.eq_def]
  simp [hact]

theorem readText_pair (hdot : c₂ ≠ dot) :
    readText eol acc (backslash :: c₂ :: rest) = readText eol (acc ++ [backslash, c₂]) rest := by
  have hact : streamAct eol acc (backslash :: c₂ :: rest) = .skipPair := by
    simp [streamAct, scanAct, backslashAct, Short, hdot, backslash, ret, lf]
  rw [readText.eq_def]
  simp [hact]

theorem readText_lf : readText eol acc (lf :: rest) =
    if eol = .cr ∨ eol = .crnl then .error .literalNl else .line (acc ++ [lf]) rest .nl := by
  have hact : streamAct eol acc (lf :: rest) = lfAct eol := by
    simp [streamAct, scanAct, lf, ret]
  rw [lfAct] at hact
  split_ifs at hact ⊢ <;> rw [readText.eq_def] <;> simp [hact]

theorem readText_cr_of_nl : readText .nl acc (ret :: rest) = .error .literalCr := by
  have hact : streamAct .nl acc (ret :: rest) = .fail .literalCr := by
    simp [streamAct, scanAct, crAct]
  rw [readText.eq_def]
  simp [hact]

theorem readText_cr_of_cr : readText .cr acc (ret :: rest) = .line (acc ++ [ret]) rest .cr := by
  have hact : streamAct .cr acc (ret :: rest) = .line 1 .cr := by
    simp [streamAct, scanAct, crAct]
  rw [readText.eq_def]
  simp [hact]

theorem readText_cr_lf (h : eol = .unknown ∨ eol = .crnl) :
    readText eol acc (ret :: lf :: rest) = .line (acc ++ [ret, lf]) rest .crnl := by
  have hact : streamAct eol acc (ret :: lf :: rest) = .line 2 .crnl := by
    simp [streamAct, scanAct, crAct, h, Short]
  rw [readText.eq_def]
  simp [hact]

theorem readText_cr_of_crnl (h : c₂ ≠ lf) : readText .crnl acc (ret :: c₂ :: rest) = .error .literalCr := by
  have hact : streamAct .crnl acc (ret :: c₂ :: rest) = .fail .literalCr := by
    simp [streamAct, scanAct, crAct, h, Short]
  rw [readText.eq_def]
  simp [hact]

theorem readText_cr_of_unknown (h : rest.head? ≠ some lf) :
    readText .unknown acc (ret :: rest) = .line (acc ++ [ret]) rest .cr := by
  have hact : streamAct .unknown acc (ret :: rest) = .line 1 .cr := by
    cases rest with
    | nil => simp [streamAct, scanAct, crAct, Short, lf]
    | cons b =>
      have hb : b ≠ lf := by simpa using h
      simp [streamAct, scanAct, crAct, Short, hb]
  rw [readText.eq_def]
  simp [hact]

theorem markerTail_final : (∃ n, markerTail eol byte avail true alone k = .marker n) ∨
      ∃ e, markerTail eol byte avail true alone k = .fail e := by
  rw [markerTail]
  split_ifs with hshort
  · exact absurd hshort.2 (by decide)
  · exact .inr ⟨_, rfl⟩
  · exact .inr ⟨_, rfl⟩
  · exact .inr ⟨_, rfl⟩
  · exact .inl ⟨_, rfl⟩

theorem markerAct_final {byte : Nat → UInt8} {avail : Nat} {alone : Bool} :
    (∃ n, markerAct eol byte avail true alone = .marker n) ∨
      ∃ e, markerAct eol byte avail true alone = .fail e := by
  rw [markerAct]
  split_ifs with _ hshort
  · exact absurd hshort.2 (by decide)
  · exact .inr ⟨_, rfl⟩
  · exact .inr ⟨_, rfl⟩
  · exact markerTail_final
  · exact markerTail_final

/-- A backslash and a dot end the reading, by the marker or by an error, and only the bytes of the
newline behind them say which. -/
theorem readText_marker (hw : (if eol = .crnl then 2 else 1) ≤ w.length) :
    ∃ o : Outcome, o.Final ∧ ∀ rest, readText eol acc (backslash :: dot :: (w ++ rest)) = o := by
  have hact : ∀ rest, streamAct eol acc (backslash :: dot :: (w ++ rest)) =
      markerAct eol (fun k => (backslash :: dot :: w).getD k 0) 4 true acc.isEmpty := by
    obtain _ | ⟨a, w⟩ := w
    · split_ifs at hw <;> simp at hw
    · by_cases hcrnl : eol = .crnl
      · rw [if_pos hcrnl] at hw
        obtain _ | ⟨b, w⟩ := w
        · simp at hw
        · simp [streamAct, scanAct, backslashAct, markerAct, markerTail, Short, backslash, ret, lf]
      · simp [streamAct, scanAct, backslashAct, markerAct, markerTail, Short, backslash, ret, lf, hcrnl]
  rcases @markerAct_final eol (fun k => (backslash :: dot :: w).getD k 0) 4 acc.isEmpty with
    ⟨n, hn⟩ | ⟨e, he⟩
  · refine ⟨.marker, trivial, ?_⟩
    intro rest
    rw [readText.eq_def]
    simp only [hact rest, hn]
  · refine ⟨.error e, trivial, ?_⟩
    intro rest
    rw [readText.eq_def]
    simp only [hact rest, he]

/-- What a complete line gives, whatever follows it: the line, or an ending that does not depend on
what follows. -/
def ReadsAs (eol : EolType) (acc w : List UInt8) (follows : List UInt8 → Prop) (eol' : EolType) : Prop :=
  (∀ rest, follows rest → readText eol acc (w ++ rest) = .line (acc ++ w) rest eol') ∨
    ∃ o : Outcome, o.Final ∧ ∀ rest, readText eol acc (w ++ rest) = o

theorem ReadsAs.of_eq (p) (heq : ∀ rest, readText eol acc (p ++ w ++ rest) = readText eol (acc ++ p) (w ++ rest))
    (h : ReadsAs eol (acc ++ p) w follows eol') : ReadsAs eol acc (p ++ w) follows eol' := by
  rcases h with hline | ⟨o, ho, hfinal⟩
  · left
    intro rest hrest
    rw [heq, hline rest hrest, append_assoc]
  · right
    exact ⟨o, ho, fun rest => (heq rest).trans (hfinal rest)⟩

theorem ReadsAs.final (ho : o.Final) (h : ∀ rest, readText eol acc (w ++ rest) = o) :
    ReadsAs eol acc w follows eol' :=
  .inr ⟨o, ho, h⟩

theorem Closes.ends (h : Closes eol acc (c :: w)) (hend : EndsAt eol acc c) : w = [] :=
  ((closes_cons.mp h).resolve_right fun hlater => hlater.1 hend).2

theorem readsAs_ret (heol : eol ≠ .unknown) (h : Closes eol acc (ret :: w)) (hesc : ¬ Escaped acc) :
    ReadsAs eol acc (ret :: w) (fun _ => True) eol := by
  cases eol with
  | unknown => exact absurd rfl heol
  | nl => exact .final (o := .error .literalCr) trivial (fun rest => readText_cr_of_nl)
  | cr =>
    rw [h.ends ⟨rfl, hesc⟩]
    exact .inl (fun rest _ => readText_cr_of_cr)
  | crnl =>
    have hrest := h.tail (fun hend => absurd hend.1 (by decide))
    obtain _ | ⟨c₂, w⟩ := w
    · exact absurd hrest.length_pos (by simp)
    · obtain rfl | hl := eq_or_ne c₂ lf
      · rw [hrest.ends ⟨rfl, crEnd_concat.mpr ⟨rfl, hesc⟩⟩]
        exact .inl (fun rest _ => readText_cr_lf (.inr rfl))
      · exact .final (o := .error .literalCr) trivial (fun rest => readText_cr_of_crnl hl)

theorem readsAs_lf (heol : eol ≠ .unknown) (h : Closes eol acc (lf :: w)) (hesc : ¬ Escaped acc) :
    ReadsAs eol acc (lf :: w) (fun _ => True) eol := by
  cases eol with
  | unknown => exact absurd rfl heol
  | nl =>
    rw [h.ends ⟨rfl, hesc⟩]
    exact .inl (fun rest _ => readText_lf)
  | cr | crnl => exact .final (o := .error .literalNl) trivial (fun rest => readText_lf)

/-- What every line is read by: it is followed byte by byte, a backslash with the byte behind it, up to a
newline byte or a marker. -/
theorem ReadsAs.of_steps {P : List UInt8 → List UInt8 → Prop} {eol' : EolType}
    (hpos : ∀ acc w, P acc w → 1 ≤ w.length)
    (hpair : ∀ acc w, P acc (backslash :: w) → ¬ Escaped acc → ∃ c w', w = c :: w' ∧
      P (acc ++ [backslash, c]) w' ∧ (c = dot → (if eol = .crnl then 2 else 1) ≤ w'.length))
    (hret : ∀ acc w, P acc (ret :: w) → ¬ Escaped acc → ReadsAs eol acc (ret :: w) follows eol')
    (hlf : ∀ acc w, P acc (lf :: w) → ¬ Escaped acc → ReadsAs eol acc (lf :: w) follows eol')
    (htail : ∀ acc c w, c ≠ lf → c ≠ ret → P acc (c :: w) → P (acc ++ [c]) w)
    {n : Nat} (hn : w.length ≤ n) (h : P acc w) (hesc : ¬ Escaped acc) : ReadsAs eol acc w follows eol' := by
  induction n generalizing acc w with
  | zero => exact absurd (hpos _ _ h) (by omega)
  | succ n ih =>
    obtain _ | ⟨c, w⟩ := w
    · exact absurd (hpos _ _ h) (by simp)
    · have hlen : w.length ≤ n := by simpa using hn
      obtain rfl | hb := eq_or_ne c backslash
      · obtain ⟨c₂, w, rfl, hrest, hmarker⟩ := hpair _ _ h hesc
        have hlen' : w.length ≤ n := by
          rw [length_cons] at hlen
          omega
        obtain rfl | hdot := eq_or_ne c₂ dot
        · exact .inr (readText_marker (hmarker rfl))
        · exact (ih hlen' hrest (not_escaped_pair hesc c₂)).of_eq _ fun rest => readText_pair hdot
      · obtain rfl | hr := eq_or_ne c ret
        · exact hret _ _ h hesc
        · obtain rfl | hl := eq_or_ne c lf
          · exact hlf _ _ h hesc
          · have hesc' : ¬ Escaped (acc ++ [c]) := fun h' => hb (escaped_concat.mp h').1
            exact (ih hlen (htail _ _ _ hl hr h) hesc').of_eq _ fun rest => readText_skip hr hl hb

/-- A complete line reads the same whatever follows it. -/
theorem readText_closes (heol : eol ≠ .unknown) (h : Closes eol acc w) (hesc : ¬ Escaped acc) :
    ReadsAs eol acc w (fun _ => True) eol := by
  refine .of_steps (fun _ _ h => h.length_pos) ?_ (fun _ _ => readsAs_ret heol) (fun _ _ => readsAs_lf heol)
    (fun _ _ _ hl hr h => h.tail (not_endsAt_of_ne hl hr)) (Nat.le_refl _) h hesc
  intro acc w h hesc
  obtain ⟨c, w', hw, hrest⟩ := h.pair hesc
  refine ⟨c, w', hw, hrest, fun _ => ?_⟩
  split_ifs with hcrnl
  · subst hcrnl
    exact hrest.two_le (not_crEnd_pair hesc c)
  · exact hrest.length_pos

/-- `w` completes the first line of a stream, begun by `p`: no newline byte before its end is
unescaped, so its end decides the style. -/
inductive First (eol : EolType) : List UInt8 → List UInt8 → Prop
  | nl {p : List UInt8} : eol = .nl → ¬ Escaped p → First eol p [lf]
  | cr {p : List UInt8} : eol = .cr → ¬ Escaped p → First eol p [ret]
  | crnl {p : List UInt8} : eol = .crnl → ¬ Escaped p → First eol p [ret, lf]
  | more {p w : List UInt8} {b : UInt8} : (b = lf ∨ b = ret → Escaped p) → First eol (p ++ [b]) w →
      First eol p (b :: w)

/-- What may follow the first line: a carriage return alone is not followed by a line feed. -/
def Follows (eol : EolType) (rest : List UInt8) : Prop := eol = .cr → rest.head? ≠ some lf

theorem First.closes (h : First eol acc w) : Closes eol acc w := by
  induction h with
  | nl heol hesc | cr heol hesc =>
    subst heol
    exact .here ⟨rfl, hesc⟩
  | crnl heol hesc =>
    subst heol
    exact .more (fun hend => absurd hend.1 (by decide)) (.here ⟨rfl, crEnd_concat.mpr ⟨rfl, hesc⟩⟩)
  | @more p w b hb _ ih =>
    apply Closes.more _ ih
    intro hend
    cases eol with
    | unknown => exact hend
    | nl => exact hend.2 (hb (.inl hend.1))
    | cr => exact hend.2 (hb (.inr hend.1))
    | crnl => exact hend.2.not_escaped (hb (.inl hend.1))

theorem First.length_pos (h : First eol acc w) : 1 ≤ w.length := h.closes.length_pos

theorem First.pair (h : First eol acc (backslash :: w)) (hesc : ¬ Escaped acc) :
    ∃ c w', w = c :: w' ∧ First eol (acc ++ [backslash, c]) w' := by
  have hnext : Escaped (acc ++ [backslash]) := escaped_concat.mpr ⟨rfl, hesc⟩
  cases h with
  | more _ hrest =>
    cases hrest with
    | nl _ hesc' | cr _ hesc' | crnl _ hesc' => exact absurd hnext hesc'
    | @more _ w' c _ hrest =>
      rw [append_assoc] at hrest
      exact ⟨c, w', rfl, hrest⟩

theorem First.ret_cases (h : First eol acc (ret :: w)) (hesc : ¬ Escaped acc) :
    (eol = .cr ∧ w = []) ∨ (eol = .crnl ∧ w = [lf]) := by
  cases h with
  | cr heol => exact .inl ⟨heol, rfl⟩
  | crnl heol => exact .inr ⟨heol, rfl⟩
  | more hb => exact absurd (hb (.inr rfl)) hesc

theorem First.lf_cases (h : First eol acc (lf :: w)) (hesc : ¬ Escaped acc) : eol = .nl ∧ w = [] := by
  cases h with
  | nl heol => exact ⟨heol, rfl⟩
  | more hb => exact absurd (hb (.inl rfl)) hesc

theorem First.tail (hl : c ≠ lf) (hr : c ≠ ret) (h : First eol acc (c :: w)) : First eol (acc ++ [c]) w := by
  cases h with
  | nl => exact absurd rfl hl
  | cr | crnl => exact absurd rfl hr
  | more _ hrest => exact hrest

/-- The first line reads, in a style not known yet, as it does in the style it decides. -/
theorem readText_first (h : First eol acc w) (hesc : ¬ Escaped acc) : ReadsAs .unknown acc w (Follows eol) eol := by
  refine .of_steps (fun _ _ h => h.length_pos) ?_ ?_ ?_ (fun _ _ _ => First.tail) (Nat.le_refl _) h hesc
  · intro acc w h hesc
    obtain ⟨c, w', hw, hrest⟩ := h.pair hesc
    exact ⟨c, w', hw, hrest, fun _ => hrest.length_pos⟩
  · intro acc w h hesc
    rcases h.ret_cases hesc with ⟨rfl, rfl⟩ | ⟨rfl, rfl⟩
    · exact .inl (fun rest hrest => readText_cr_of_unknown (hrest rfl))
    · exact .inl (fun rest _ => readText_cr_lf (.inl rfl))
  · intro acc w h hesc
    obtain ⟨rfl, rfl⟩ := h.lf_cases hesc
    exact .inl (fun rest _ => readText_lf)

end Reader

section Lines

/-- A line without its newline, as `copy_read_line` leaves it. -/
def strip (eol : EolType) (l : List UInt8) : List UInt8 :=
  match eol with
  | .crnl => l.take (l.length - 2)
  | _ => l.take (l.length - 1)

/-- How the reading of lines ends. -/
inductive Ending
  | eof
  | marker
  | error (e : CopyError) (lineno : Nat)
  deriving DecidableEq, Repr

def readFuel : Nat → EolType → Nat → List UInt8 → List (Nat × List UInt8) × Ending
  | 0, _, _, _ => ([], .eof)
  | fuel + 1, eol, lineno, bytes =>
    match readText eol [] bytes with
    | .line l rest eol' =>
      ((lineno + 1, strip eol' l) :: (readFuel fuel eol' (lineno + 1) rest).1,
        (readFuel fuel eol' (lineno + 1) rest).2)
    | .eof [] => ([], .eof)
    | .eof l => ([(lineno + 1, l)], .eof)
    | .marker => ([], .marker)
    | .error e => ([], .error e (lineno + 1))

/-- All lines of a stream with their numbers, and how the reading ends. -/
def readAll (eol : EolType) (lineno : Nat) (bytes : List UInt8) : List (Nat × List UInt8) × Ending :=
  readFuel (bytes.length + 1) eol lineno bytes

/-- Reading goes on behind the lines read so far, unless they ended it. -/
def andThen (r : List (Nat × List UInt8) × Ending) (next : List (Nat × List UInt8) × Ending) :
    List (Nat × List UInt8) × Ending :=
  match r.2 with
  | .eof => (r.1 ++ next.1, next.2)
  | _ => r

variable {eol eol' : EolType} {lines : List (List UInt8)} {l rest bytes acc : List UInt8} {lineno : Nat}
  {r next : List (Nat × List UInt8) × Ending}

/-- A line that is handed over has at least one byte. -/
def Act.Advances : Act → Prop
  | .line n _ => 1 ≤ n
  | _ => True

theorem markerTail_advances : (markerTail eol byte avail hitEof alone k).Advances := by
  rw [markerTail]
  split_ifs <;> exact trivial

theorem scanAct_advances {byte : Nat → UInt8} {avail : Nat} {hitEof alone : Bool} :
    (scanAct eol byte avail hitEof alone).Advances := by
  have hcr : (crAct eol byte avail hitEof).Advances := by
    rw [crAct]
    split_ifs <;> simp [Act.Advances]
  have hlf : (lfAct eol).Advances := by
    rw [lfAct]
    split_ifs <;> simp [Act.Advances]
  have hmarker : (markerAct eol byte avail hitEof alone).Advances := by
    rw [markerAct]
    split_ifs <;> first | exact trivial | exact markerTail_advances
  have hback : (backslashAct eol byte avail hitEof alone).Advances := by
    rw [backslashAct]
    split_ifs <;> first | exact trivial | exact hmarker
  rw [scanAct]
  split_ifs
  · exact hcr
  · exact hlf
  · exact hback
  · exact trivial

theorem readText_length (h : readText eol acc bytes = .line l rest eol') : rest.length < bytes.length := by
  fun_induction readText eol acc bytes with
  | case1 => cases h
  | case2 acc c r hact ih => exact Nat.lt_succ_of_lt (ih h)
  | case3 => cases h
  | case4 acc c c₂ r hact ih =>
    have := ih h
    simp only [length_cons]
    omega
  | case5 acc c r n eol'' hact =>
    cases h
    have hpos := @scanAct_advances eol (fun k => (c :: r).getD k 0) (c :: r).length true acc.isEmpty
    rw [← streamAct, hact] at hpos
    simp only [Act.Advances] at hpos
    simp only [length_drop, length_cons]
    omega
  | case6 => cases h
  | case7 => cases h
  | case8 => cases h
  | case9 => cases h

theorem readFuel_stable (h : bytes.length < fuel) (h' : bytes.length < fuel') :
    readFuel fuel eol lineno bytes = readFuel fuel' eol lineno bytes := by
  induction fuel generalizing fuel' eol lineno bytes with
  | zero => exact absurd h (Nat.not_lt_zero _)
  | succ fuel ih =>
    obtain _ | fuel' := fuel'
    · exact absurd h' (Nat.not_lt_zero _)
    · rw [readFuel, readFuel]
      cases hread : readText eol [] bytes with
      | line l rest =>
        have hlt := readText_length hread
        simp only
        rw [ih (by omega) (by omega : rest.length < fuel')]
      | eof l => cases l <;> rfl
      | marker => rfl
      | error => rfl

theorem readAll_line (h : readText eol [] bytes = .line l rest eol') :
    readAll eol lineno bytes = ((lineno + 1, strip eol' l) :: (readAll eol' (lineno + 1) rest).1,
        (readAll eol' (lineno + 1) rest).2) := by
  have hlt := readText_length h
  rw [readAll, readFuel, h]
  simp only
  rw [readAll, readFuel_stable hlt (Nat.lt_succ_self rest.length)]

theorem readAll_final {o : Outcome} (ho : o.Final) {bytes' : List UInt8} (h : readText eol [] bytes = o)
    (h' : readText eol [] bytes' = o) :
    readAll eol lineno bytes = readAll eol lineno bytes' ∧ (readAll eol lineno bytes).2 ≠ .eof := by
  rw [readAll, readAll, readFuel, readFuel, h, h']
  cases o with
  | line | eof => exact absurd ho id
  | marker => exact ⟨rfl, by simp⟩
  | error => exact ⟨rfl, by simp⟩

theorem andThen_cons : andThen (x :: r.1, r.2) next = (x :: (andThen r next).1, (andThen r next).2) := by
  obtain ⟨ls, e⟩ := r
  cases e <;> rfl

theorem andThen_of_ne (h : r.2 ≠ .eof) : andThen r next = r := by
  obtain ⟨ls, e⟩ := r
  cases e with
  | eof => exact absurd rfl h
  | marker => rfl
  | error => rfl

/-- A line that reads the same whatever follows it is read on its own first. -/
theorem readAll_append (h : ReadsAs eol [] l follows eol') (hrest : follows (more ++ rest)) (hmore : follows more)
    (hnext : readAll eol' (lineno + 1) (more ++ rest) = andThen (readAll eol' (lineno + 1) more) next) :
    readAll eol lineno (l ++ more ++ rest) = andThen (readAll eol lineno (l ++ more)) next := by
  rw [append_assoc]
  rcases h with hline | ⟨o, ho, hfinal⟩
  · rw [readAll_line (hline _ hrest), readAll_line (hline _ hmore), hnext, andThen_cons]
  · obtain ⟨heq, hne⟩ := readAll_final ho (hfinal more) (hfinal (more ++ rest))
    rw [andThen_of_ne hne, heq]

/-- Complete lines read on their own and then the rest read as everything read at once. -/
theorem readAll_lines (heol : eol ≠ .unknown) (hlines : ∀ l ∈ lines, IsLine eol l) :
    readAll eol lineno (lines.flatten ++ rest) =
      andThen (readAll eol lineno lines.flatten) (readAll eol (lineno + lines.length) rest) := by
  induction lines generalizing lineno with
  | nil => rfl
  | cons l lines ih =>
    have hl : ReadsAs eol [] l (fun _ => True) eol := readText_closes heol (hlines l mem_cons_self) not_escaped_nil
    have htail := @ih (lineno + 1) (fun l' hl' => hlines l' (mem_cons_of_mem l hl'))
    rw [length_cons, Nat.add_comm lines.length 1, ← Nat.add_assoc]
    exact readAll_append hl trivial trivial htail

theorem readAll_first (heol : eol ≠ .unknown) (hl : First eol [] l) (hlines : ∀ l ∈ lines, IsLine eol l)
    (hfollows : Follows eol (lines.flatten ++ rest)) (hfollows' : Follows eol lines.flatten) :
    readAll .unknown lineno ((l :: lines).flatten ++ rest) = andThen (readAll .unknown lineno (l :: lines).flatten)
        (readAll eol (lineno + (l :: lines).length) rest) := by
  have htail := @readAll_lines eol lines rest (lineno + 1) heol hlines
  rw [length_cons, Nat.add_comm lines.length 1, ← Nat.add_assoc]
  exact readAll_append (readText_first hl not_escaped_nil) hfollows hfollows' htail

end Lines

end CopyText
