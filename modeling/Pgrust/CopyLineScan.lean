import Pgrust.CopyText

/-!
The cutting of a COPY stream into lines and groups of lines, one byte at a time. The style of the
newline is decided by the first line; a carriage return at its end waits for the next byte.
-/

namespace CopyLineScan

open CopyText List

theorem forall_mem_concat {P : α → Prop} (h : ∀ x ∈ l, P x) (ha : P a) : ∀ x ∈ l ++ [a], P x :=
  forall_mem_append.mpr ⟨h, forall_mem_singleton.mpr ha⟩

/-- The scan after some bytes: the unfinished line, the complete lines of the group at hand, the
groups cut off, and whether the end-of-copy marker line was met. -/
structure Scan where
  eol : EolType
  line : List UInt8
  group : List (List UInt8)
  chunks : List (List (List UInt8))
  eoc : Bool
  deriving DecidableEq

namespace Scan

def start : Scan where
  eol := .unknown
  line := []
  group := []
  chunks := []
  eoc := false

variable (rpc : Nat)

/-- A line is complete: the marker line and a full group are cut off. -/
def close (s : Scan) (eol : EolType) (l : List UInt8) : Scan :=
  if isMarker l then
    { eol := eol, line := [], group := [], chunks := s.chunks ++ [s.group ++ [l]], eoc := true }
  else if rpc ≤ s.group.length + 1 then
    { eol := eol, line := [], group := [], chunks := s.chunks ++ [s.group ++ [l]], eoc := false }
  else { eol := eol, line := [], group := s.group ++ [l], chunks := s.chunks, eoc := false }

/-- A carriage return that waited is a newline of its own unless a line feed follows. -/
def resolve (s : Scan) (b : UInt8) : Scan :=
  if s.eol = .unknown ∧ CrEnd s.line ∧ b ≠ lf then s.close rpc .cr s.line else s

/-- The style that a line feed behind `p` decides. -/
def styleAt (p : List UInt8) : EolType := if CrEnd p then .crnl else .nl

def absorb (s : Scan) (b : UInt8) : Scan :=
  if s.eol = .unknown then
    if b = lf ∧ ¬ Escaped s.line then s.close rpc (styleAt s.line) (s.line ++ [b])
    else { s with line := s.line ++ [b] }
  else if EndsAt s.eol s.line b then s.close rpc s.eol (s.line ++ [b])
  else { s with line := s.line ++ [b] }

def step (s : Scan) (b : UInt8) : Scan :=
  if (s.resolve rpc b).eoc then s.resolve rpc b else (s.resolve rpc b).absorb rpc b

def run (s : Scan) (bytes : List UInt8) : Scan := bytes.foldl (step rpc) s

/-- The complete lines. -/
def lines (s : Scan) : List (List UInt8) := s.chunks.flatten ++ s.group

/-- The bytes that were taken up. -/
def bytes (s : Scan) : List UInt8 := s.lines.flatten ++ s.line

end Scan

section Lines

variable {eol : EolType} {p : List UInt8} {b : UInt8}

/-- No byte of `p` ends the line, so what completes `p` completes a line. -/
def Open (eol : EolType) (p : List UInt8) : Prop := ∀ w, Closes eol p w → IsLine eol (p ++ w)

/-- The same for the first line. -/
def FirstOpen (p : List UInt8) : Prop := ∀ eol w, First eol p w → First eol [] (p ++ w)

theorem open_nil : Open eol [] := fun _ h => h

theorem firstOpen_nil : FirstOpen [] := fun _ _ h => h

theorem Open.concat (h : Open eol p) (hb : ¬ EndsAt eol p b) : Open eol (p ++ [b]) := by
  intro w hw
  rw [append_assoc]
  exact h (b :: w) (.more hb hw)

theorem FirstOpen.concat (h : FirstOpen p) (hb : b = lf ∨ b = ret → Escaped p) : FirstOpen (p ++ [b]) := by
  intro eol w hw
  rw [append_assoc]
  exact h eol (b :: w) (.more hb hw)

/-- The unfinished first line: without a newline byte so far, or with a carriage return last. -/
def Begun (p : List UInt8) : Prop := (FirstOpen p ∧ ¬ CrEnd p) ∨ ∃ q, p = q ++ [ret] ∧ FirstOpen q ∧ ¬ Escaped q

theorem Begun.crEnd (h : Begun p) (hp : CrEnd p) : ∃ q, p = q ++ [ret] ∧ FirstOpen q ∧ ¬ Escaped q :=
  h.resolve_left fun hopen => hopen.2 hp

theorem Begun.firstOpen (h : Begun p) (hp : ¬ CrEnd p) : FirstOpen p := by
  rcases h with ⟨hopen, -⟩ | ⟨q, rfl, -, hq⟩
  · exact hopen
  · exact absurd (crEnd_concat.mpr ⟨rfl, hq⟩) hp

/-- A byte behind a first line that did not end. -/
theorem FirstOpen.begun_concat (h : FirstOpen p) (hb : ¬ (b = lf ∧ ¬ Escaped p)) : Begun (p ++ [b]) := by
  obtain rfl | hret := eq_or_ne b ret
  · by_cases hesc : Escaped p
    · exact .inl ⟨h.concat (fun _ => hesc), fun hcr => (crEnd_concat.mp hcr).2 hesc⟩
    · exact .inr ⟨p, rfl, h, hesc⟩
  · refine .inl ⟨h.concat ?_, fun hcr => hret (crEnd_concat.mp hcr).1⟩
    rintro (rfl | rfl)
    · by_contra hesc
      exact hb ⟨rfl, hesc⟩
    · exact absurd rfl hret

/-- The line feed that ends the first line decides its style. -/
theorem Begun.first_lf (h : Begun p) (hesc : ¬ Escaped p) : First (Scan.styleAt p) [] (p ++ [lf]) := by
  rw [Scan.styleAt]
  split_ifs with hcr
  · obtain ⟨q, rfl, hopen, hq⟩ := h.crEnd hcr
    rw [append_assoc]
    exact hopen .crnl _ (.crnl rfl hq)
  · exact h.firstOpen hcr .nl _ (.nl rfl hesc)

theorem Begun.first_cr (h : Begun p) (hcr : CrEnd p) : First .cr [] p := by
  obtain ⟨q, rfl, hopen, hq⟩ := h.crEnd hcr
  exact hopen .cr _ (.cr rfl hq)

end Lines

namespace Scan

variable {rpc : Nat} {s : Scan} {eol : EolType} {l : List UInt8} {b : UInt8}

@[simp] theorem close_eol : (s.close rpc eol l).eol = eol := by
  rw [close]
  split_ifs <;> rfl

@[simp] theorem close_line : (s.close rpc eol l).line = [] := by
  rw [close]
  split_ifs <;> rfl

@[simp] theorem close_lines : (s.close rpc eol l).lines = s.lines ++ [l] := by
  rw [close]
  split_ifs <;> simp [lines]

theorem close_bytes : (s.close rpc eol l).bytes = s.lines.flatten ++ l := by
  simp [bytes]

/-- How the lines lie in groups: all groups are full and without a marker line, or the last one
ends with the only marker line. -/
def Grouped (rpc : Nat) (s : Scan) : Prop :=
  (s.eoc = false ∧ s.group.length < rpc ∧ (∀ c ∈ s.chunks, c.length = rpc) ∧ ∀ l ∈ s.lines, isMarker l = false) ∨
    (s.eoc = true ∧ s.line = [] ∧ s.group = [] ∧ ∃ cs g m, s.chunks = cs ++ [g ++ [m]] ∧
      isMarker m = true ∧ g.length < rpc ∧ (∀ c ∈ cs, c.length = rpc) ∧
      ∀ l ∈ cs.flatten ++ g, isMarker l = false)

theorem Grouped.open (h : s.Grouped rpc) (heoc : s.eoc = false) :
    s.group.length < rpc ∧ (∀ c ∈ s.chunks, c.length = rpc) ∧ ∀ l ∈ s.lines, isMarker l = false := by
  rcases h with ⟨-, hopen⟩ | ⟨heoc', -⟩
  · exact hopen
  · rw [heoc] at heoc'
    cases heoc'

theorem Grouped.close (h : s.Grouped rpc) (heoc : s.eoc = false) : (s.close rpc eol l).Grouped rpc := by
  obtain ⟨hgroup, hchunks, hlines⟩ := h.open heoc
  rw [Scan.close]
  split_ifs with hmarker hfull
  · exact .inr ⟨rfl, rfl, rfl, s.chunks, s.group, l, rfl, hmarker, hgroup, hchunks, hlines⟩
  · refine .inl ⟨rfl, Nat.lt_of_le_of_lt (Nat.zero_le _) hgroup, forall_mem_concat hchunks ?_, ?_⟩
    · rw [length_append, length_singleton]
      omega
    · simpa [lines] using forall_mem_concat hlines (Bool.eq_false_iff.mpr hmarker)
  · refine .inl ⟨rfl, ?_, hchunks, ?_⟩
    · rw [length_append, length_singleton]
      omega
    · simpa [lines] using forall_mem_concat hlines (Bool.eq_false_iff.mpr hmarker)

/-- The lines under a style: the first one decided it, and the others are lines in it. -/
structure Decided (s : Scan) (l : List UInt8) (ls : List (List UInt8)) : Prop where
  known : s.eol ≠ .unknown
  lines : s.lines = l :: ls
  first : First s.eol [] l
  line : ∀ l' ∈ ls, IsLine s.eol l'
  rest : Open s.eol s.line

/-- The style is open and there is no line yet, or it was decided by the first line. A carriage
return decided it only once another byte followed. -/
def Styled (s : Scan) : Prop :=
  (s.eol = .unknown ∧ s.lines = [] ∧ s.eoc = false ∧ Begun s.line) ∨
    ∃ l ls, s.Decided l ls ∧ Follows s.eol (ls.flatten ++ s.line) ∧
      (s.eol = .cr → s.eoc = false → ls.flatten ++ s.line ≠ [])

theorem decided_close (hlines : s.lines = []) (hl : First eol [] l) (heol : eol ≠ .unknown) :
    (s.close rpc eol l).Decided l [] where
  known := by simpa using heol
  lines := by simp [hlines]
  first := by simpa using hl
  line := by simp
  rest := by simpa using open_nil

theorem styleAt_ne (p) : styleAt p ≠ .unknown ∧ styleAt p ≠ .cr := by
  rw [styleAt]
  split_ifs <;> decide

theorem Decided.absorb (h : s.Decided l ls) (hfollows : Follows s.eol (ls.flatten ++ s.line ++ [b])) :
    (s.absorb rpc b).Styled := by
  rw [Scan.absorb, if_neg h.known]
  split_ifs with hend
  · have hline : IsLine s.eol (s.line ++ [b]) := h.rest [b] (.here hend)
    have htail : (ls ++ [s.line ++ [b]]).flatten = ls.flatten ++ s.line ++ [b] := by simp
    refine .inr ⟨l, ls ++ [s.line ++ [b]], ⟨?_, ?_, ?_, ?_, ?_⟩, ?_, ?_⟩
    · simpa using h.known
    · simp [h.lines]
    · simpa using h.first
    · rw [close_eol]
      exact forall_mem_concat h.line hline
    · simpa using open_nil
    · rw [close_eol, close_line, htail, append_nil]
      exact hfollows
    · simp
  · refine .inr ⟨l, ls, ⟨h.known, h.lines, h.first, h.line, h.rest.concat hend⟩, ?_, ?_⟩
    · simpa using hfollows
    · simp

theorem Styled.step (h : s.Styled) : (s.step rpc b).Styled := by
  rcases h with ⟨heol, hlines, heoc, hbegun⟩ | ⟨l, ls, hdec, hfollows, hcr⟩
  · by_cases hpend : CrEnd s.line ∧ b ≠ lf
    · -- the carriage return was the newline: `b` starts the second line
      have hres : s.resolve rpc b = s.close rpc .cr s.line := if_pos ⟨heol, hpend⟩
      have hdec : (s.close rpc .cr s.line).Decided s.line [] :=
        decided_close hlines (hbegun.first_cr hpend.1) (by decide)
      rw [Scan.step, hres]
      split_ifs with hmark
      · exact .inr ⟨_, _, hdec, by simp [Follows], fun _ heoc' => by rw [hmark] at heoc'; cases heoc'⟩
      · apply hdec.absorb
        intro _
        simpa using hpend.2
    · have hres : s.resolve rpc b = s := if_neg (fun h => hpend h.2)
      rw [Scan.step, hres, if_neg (by simp [heoc]), Scan.absorb]
      split_ifs with hend
      · obtain ⟨rfl, hesc⟩ := hend
        obtain ⟨hne, hne'⟩ := styleAt_ne s.line
        refine .inr ⟨_, _, decided_close hlines (hbegun.first_lf hesc) hne, by simp [Follows], ?_⟩
        intro hcr
        rw [close_eol] at hcr
        exact absurd hcr hne'
      · have hnot : ¬ CrEnd s.line := by
          intro hcrend
          exact hend ⟨not_not.mp (fun hb => hpend ⟨hcrend, hb⟩), hcrend.not_escaped⟩
        exact .inl ⟨heol, hlines, heoc, (hbegun.firstOpen hnot).begun_concat hend⟩
  · have hres : s.resolve rpc b = s := if_neg (fun h => hdec.known h.1)
    rw [Scan.step, hres]
    split_ifs with hmark
    · exact .inr ⟨l, ls, hdec, hfollows, hcr⟩
    · apply hdec.absorb
      intro heol
      obtain ⟨x, xs, hx⟩ := exists_cons_of_ne_nil (hcr heol (Bool.eq_false_iff.mpr hmark))
      have hhead := hfollows heol
      rw [hx] at hhead ⊢
      exact hhead

theorem Grouped.absorb (h : s.Grouped rpc) (heoc : s.eoc = false) : (s.absorb rpc b).Grouped rpc := by
  have happend : ({ s with line := s.line ++ [b] } : Scan).Grouped rpc := .inl ⟨heoc, h.open heoc⟩
  rw [Scan.absorb]
  split_ifs
  · exact h.close heoc
  · exact happend
  · exact h.close heoc
  · exact happend

theorem Grouped.step (h : s.Grouped rpc) (hs : s.Styled) : (s.step rpc b).Grouped rpc := by
  have hres : (s.resolve rpc b).Grouped rpc := by
    rw [resolve]
    split_ifs with hpend
    · rcases hs with ⟨-, -, heoc, -⟩ | ⟨l, ls, hdec, -⟩
      · exact h.close heoc
      · exact absurd hpend.1 hdec.known
    · exact h
  rw [Scan.step]
  split_ifs with hmark
  · exact hres
  · exact hres.absorb (Bool.eq_false_iff.mpr hmark)

theorem absorb_bytes : (s.absorb rpc b).bytes = s.bytes ++ [b] := by
  have hclose : ∀ eol, (s.close rpc eol (s.line ++ [b])).bytes = s.bytes ++ [b] := by
    intro eol
    rw [close_bytes, bytes, append_assoc]
  have happend : ({ s with line := s.line ++ [b] } : Scan).bytes = s.bytes ++ [b] := by
    simp [bytes, lines]
  rw [Scan.absorb]
  split_ifs
  · exact hclose _
  · exact happend
  · exact hclose _
  · exact happend

theorem resolve_bytes : (s.resolve rpc b).bytes = s.bytes := by
  rw [resolve]
  split_ifs
  · rw [close_bytes, bytes]
  · rfl

/-- A byte is taken up, unless the line before it turned out to be the marker line. -/
theorem step_bytes : (s.step rpc b).bytes = s.bytes ++ [b] ∨
    ((s.step rpc b).eoc = true ∧ (s.step rpc b).bytes = s.bytes) := by
  rw [Scan.step]
  split_ifs with hmark
  · exact .inr ⟨hmark, resolve_bytes⟩
  · exact .inl (by rw [absorb_bytes, resolve_bytes])

/-- After the marker line the scan does not move. -/
theorem step_of_eoc (h : s.Styled) (heoc : s.eoc = true) : s.step rpc b = s := by
  have hres : s.resolve rpc b = s := by
    apply if_neg
    intro hpend
    rcases h with ⟨-, -, heoc', -⟩ | ⟨l, ls, hdec, -⟩
    · rw [heoc] at heoc'
      cases heoc'
    · exact hdec.known hpend.1
  rw [Scan.step, hres, if_pos heoc]

theorem start_styled : start.Styled := .inl ⟨rfl, rfl, rfl, .inl ⟨firstOpen_nil, not_crEnd_nil⟩⟩

theorem start_grouped (h : 1 ≤ rpc) : start.Grouped rpc := .inl ⟨rfl, h, by simp [start], by simp [start, lines]⟩

/-- What holds of the scan after any bytes. -/
structure Sound (rpc : Nat) (s : Scan) (input : List UInt8) : Prop where
  styled : s.Styled
  grouped : s.Grouped rpc
  bytes : s.bytes = input ∨ (s.eoc = true ∧ ∃ rest, input = s.bytes ++ rest)

theorem Sound.step {input : List UInt8} (h : Sound rpc s input) : Sound rpc (s.step rpc b) (input ++ [b]) where
  styled := h.styled.step
  grouped := h.grouped.step h.styled
  bytes := by
    rcases h.bytes with hbytes | ⟨heoc, rest, hrest⟩
    · rcases step_bytes with hstep | ⟨heoc, hstep⟩
      · exact .inl (by rw [hstep, hbytes])
      · exact .inr ⟨heoc, [b], by rw [hstep, hbytes]⟩
    · right
      rw [step_of_eoc h.styled heoc]
      exact ⟨heoc, rest ++ [b], by rw [hrest, append_assoc]⟩

theorem Sound.run {input more : List UInt8} (h : Sound rpc s input) :
    Sound rpc (s.run rpc more) (input ++ more) := by
  induction more generalizing s input with
  | nil =>
    rw [append_nil]
    exact h
  | cons b more ih =>
    have hrest := ih (@Sound.step rpc s b input h)
    rw [append_assoc] at hrest
    exact hrest

theorem sound_run (h : 1 ≤ rpc) (input : List UInt8) : Sound rpc (start.run rpc input) input :=
  Sound.run ⟨start_styled, start_grouped h, .inl rfl⟩

/-- What is left at the end of the stream is a last group. -/
def tail (s : Scan) : List UInt8 := s.group.flatten ++ s.line

end Scan

variable {ls g : List (List UInt8)} {m l : List UInt8}

section Count

variable {eol : EolType}

/-- The number of complete lines in the bytes behind `p`. -/
def lineCount (eol : EolType) : List UInt8 → List UInt8 → Nat
  | _, [] => 0
  | p, b :: rest => if EndsAt eol p b then lineCount eol [] rest + 1 else lineCount eol (p ++ [b]) rest

theorem lineCount_closes (h : Closes eol p w) : lineCount eol p (w ++ rest) = lineCount eol [] rest + 1 := by
  induction h with
  | here hend => exact if_pos hend
  | more hend _ ih => exact (if_neg hend).trans ih

theorem lineCount_lines (h : ∀ l ∈ ls, IsLine eol l) : lineCount eol [] ls.flatten = ls.length := by
  induction ls with
  | nil => rfl
  | cons l ls ih =>
    rw [flatten_cons, lineCount_closes (h l mem_cons_self),
      ih (fun l' hl' => h l' (mem_cons_of_mem l hl')), length_cons]

end Count

section Reading

variable {eol : EolType} {n : Nat} {rest : List UInt8}

/-- Chunks read one after the other until one of them ends the reading: the first in style `first`,
the others in style `later`. A chunk comes with the number of its first line. -/
def readChunks (later : EolType) : EolType → List (Nat × List UInt8) → List (Nat × List UInt8) × Ending
  | _, [] => ([], .eof)
  | first, (lineno, bytes) :: chunks => andThen (readAll first (lineno - 1) bytes) (readChunks later later chunks)

/-- Groups of lines with the numbers of their first lines. -/
def numbered : Nat → List (List (List UInt8)) → List (Nat × List UInt8)
  | _, [] => []
  | n, c :: cs => (n, c.flatten) :: numbered (n + c.length) cs

theorem andThen_eof (r : List (Nat × List UInt8) × Ending) : andThen r ([], .eof) = r := by
  obtain ⟨ls, e⟩ := r
  cases e <;> simp [andThen]

theorem andThen_ne_eof {next : _ × Ending} (h : next.2 ≠ .eof) : (andThen r next).2 ≠ .eof := by
  obtain ⟨ls, e⟩ := r
  cases e with
  | eof => exact h
  | marker | error => simp [andThen]

/-- Groups of complete lines in front of chunks that read as `rest`. -/
theorem readChunks_numbered (heol : eol ≠ .unknown) (hcs : ∀ l ∈ cs.flatten, IsLine eol l)
    (hmore : readChunks eol eol more = readAll eol (n + cs.flatten.length) rest) :
    readChunks eol eol (numbered (n + 1) cs ++ more) = readAll eol n (cs.flatten.flatten ++ rest) := by
  induction cs generalizing n with
  | nil => exact hmore
  | cons c cs ih =>
    have hc : ∀ l ∈ c, IsLine eol l := fun l hl => hcs l (mem_append_left _ hl)
    have hrest : ∀ l ∈ cs.flatten, IsLine eol l := fun l hl => hcs l (mem_append_right c hl)
    have hlen : n + (c :: cs).flatten.length = n + c.length + cs.flatten.length := by
      rw [flatten_cons, length_append, Nat.add_assoc]
    rw [hlen] at hmore
    have htail := ih hrest hmore
    rw [numbered, cons_append, readChunks, Nat.add_sub_cancel, Nat.add_right_comm n 1, htail,
      flatten_cons, flatten_append, append_assoc, readAll_lines heol hc]

theorem isMarker_cons (h : isMarker m = true) : ∃ w, m = backslash :: dot :: w := by
  rw [isMarker, decide_eq_true_eq] at h
  obtain _ | ⟨a, _ | ⟨b, w⟩⟩ := m
  · cases h
  · cases h
  · cases h
    exact ⟨w, rfl⟩

/-- A marker line ends the reading whatever follows. -/
theorem readText_of_marker (h : IsLine eol m) (hm : isMarker m = true) (hfirst : first = eol ∨ first = .unknown) :
    ∃ o : Outcome, o.Final ∧ ∀ rest, readText first [] (m ++ rest) = o := by
  obtain ⟨w, rfl⟩ := isMarker_cons hm
  obtain ⟨c, w', hcons, hrest⟩ := Closes.pair h not_escaped_nil
  cases hcons
  apply readText_marker
  split_ifs with hcrnl
  · rcases hfirst with rfl | rfl
    · subst hcrnl
      exact hrest.two_le (not_crEnd_pair not_escaped_nil dot)
    · cases hcrnl
  · exact hrest.length_pos

theorem readAll_of_marker (h : IsLine eol m) (hm : isMarker m = true)
    (hfirst : first = eol ∨ first = .unknown) (rest) :
    readAll first n (m ++ rest) = readAll first n m ∧ (readAll first n m).2 ≠ .eof := by
  obtain ⟨o, ho, hread⟩ := readText_of_marker h hm hfirst
  have hm := hread []
  rw [append_nil] at hm
  obtain ⟨heq, hne⟩ := readAll_final ho hm (hread rest)
  exact ⟨heq.symm, hne⟩

/-- Lines of which the last is the marker line read the same whatever follows. -/
theorem readAll_marked (heol : eol ≠ .unknown) (hlines : ∀ l ∈ g ++ [m], IsLine eol l)
    (hm : isMarker m = true) (rest) :
    readAll eol n ((g ++ [m]).flatten ++ rest) = readAll eol n (g ++ [m]).flatten ∧
      (readAll eol n (g ++ [m]).flatten).2 ≠ .eof := by
  have hg : ∀ l ∈ g, IsLine eol l := fun l hl => hlines l (mem_append_left _ hl)
  have hlast : IsLine eol m := hlines m (by simp)
  have hne : (readAll eol n (g ++ [m]).flatten).2 ≠ .eof := by
    rw [flatten_append, flatten_singleton, readAll_lines heol hg]
    exact andThen_ne_eof (readAll_of_marker hlast hm (.inl rfl) []).2
  rw [readAll_lines heol hlines, andThen_of_ne hne]
  exact ⟨rfl, hne⟩

theorem follows_append {xs : List UInt8} (h : Follows eol xs) (hne : xs ≠ []) : Follows eol (xs ++ rest) := by
  obtain ⟨x, xs, rfl⟩ := exists_cons_of_ne_nil hne
  exact h

theorem follows_left {xs ys : List UInt8} (h : Follows eol (xs ++ ys)) : Follows eol xs := by
  obtain _ | ⟨x, xs⟩ := xs
  · simp [Follows]
  · exact h

theorem readAll_marked_first (heol : eol ≠ .unknown) (hsplit : l :: ls = g ++ [m])
    (hl : First eol [] l) (hls : ∀ l' ∈ ls, IsLine eol l') (hfollows : Follows eol ls.flatten)
    (hm : isMarker m = true) (rest) :
    readAll .unknown n ((l :: ls).flatten ++ rest) = readAll .unknown n (l :: ls).flatten := by
  obtain _ | ⟨l', g⟩ := g
  · cases hsplit
    rw [flatten_singleton]
    exact (readAll_of_marker hl.closes hm (.inr rfl) rest).1
  · rw [cons_append] at hsplit
    obtain ⟨rfl, rfl⟩ := List.cons.inj hsplit
    have hg : ∀ l' ∈ g, IsLine eol l' := fun l' hl' => hls l' (mem_append_left _ hl')
    have hlast : IsLine eol m := hls m (by simp)
    have hnil : (g ++ [m]).flatten ≠ [] := by
      obtain ⟨w, rfl⟩ := isMarker_cons hm
      simp
    have hne : (readAll .unknown n (l :: (g ++ [m])).flatten).2 ≠ .eof := by
      have hfirst := @readAll_first eol g l m n heol hl hg (by simpa using hfollows)
        (@follows_left eol g.flatten m (by simpa using hfollows))
      have hsame : (l :: (g ++ [m])).flatten = (l :: g).flatten ++ m := by simp
      rw [hsame, hfirst]
      exact andThen_ne_eof (readAll_of_marker hlast hm (.inl rfl) []).2
    rw [readAll_first heol hl hls (follows_append hfollows hnil) hfollows, andThen_of_ne hne]

/-- The groups of a scan with the numbers of their first lines, the last one at the end of the
stream. -/
def Scan.numberedPieces (s : Scan) : List (Nat × List UInt8) :=
  numbered 1 s.chunks ++ if s.tail = [] then [] else [(s.chunks.flatten.length + 1, s.tail)]

/-- What is left at the end reads as the last chunk does. -/
theorem readChunks_tail (t : List UInt8) (first : EolType) :
    readChunks eol first (if t = [] then [] else [(n + 1, t)]) = readAll first n t := by
  split_ifs with ht
  · rw [ht]
    rfl
  · exact andThen_eof _

variable {s : Scan} {rpc : Nat} {input : List UInt8}

theorem numbered_concat (cs : List (List (List UInt8))) (c : List (List UInt8)) :
    numbered n (cs ++ [c]) = numbered n cs ++ [(n + cs.flatten.length, c.flatten)] := by
  induction cs generalizing n with
  | nil => rfl
  | cons c' cs ih =>
    rw [cons_append, numbered, ih, flatten_cons, length_append, Nat.add_assoc]
    rfl

/-- The first group, read in the open style, in front of the others. -/
theorem readChunks_first (heol : eol ≠ .unknown) {l : List UInt8} {c : List (List UInt8)}
    {cs : List (List (List UInt8))} {more : List (Nat × List UInt8)} (hl : First eol [] l)
    (hlines : ∀ x ∈ c ++ cs.flatten, IsLine eol x)
    (hfollows : Follows eol (c.flatten ++ (cs.flatten.flatten ++ rest)))
    (hmore : readChunks eol eol more = readAll eol (n + ((l :: c) :: cs).flatten.length) rest) :
    readChunks eol .unknown (numbered (n + 1) ((l :: c) :: cs) ++ more) =
      readAll .unknown n (((l :: c) :: cs).flatten.flatten ++ rest) := by
  have hc : ∀ x ∈ c, IsLine eol x := fun x hx => hlines x (mem_append_left _ hx)
  have hcs : ∀ x ∈ cs.flatten, IsLine eol x := fun x hx => hlines x (mem_append_right _ hx)
  rw [flatten_cons, length_append, ← Nat.add_assoc] at hmore
  have htail := readChunks_numbered heol hcs hmore
  have hsplit : ((l :: c) :: cs).flatten.flatten ++ rest =
      (l :: c).flatten ++ (cs.flatten.flatten ++ rest) := by simp
  rw [numbered, cons_append, readChunks, Nat.add_sub_cancel, Nat.add_right_comm n 1, htail, hsplit,
    readAll_first heol hl hc hfollows (follows_left hfollows)]

theorem Scan.readChunks_open (hrpc : 1 ≤ rpc) (hgroup : s.Grouped rpc) (heoc : s.eoc = false)
    (hdec : s.Decided l ls) (hfollows : Follows s.eol (ls.flatten ++ s.line)) :
    readChunks s.eol .unknown s.numberedPieces = readAll .unknown 0 s.bytes := by
  obtain ⟨-, hfull, -⟩ := hgroup.open heoc
  have hlines := hdec.lines
  have hbytes : s.bytes = s.chunks.flatten.flatten ++ s.tail := by
    rw [Scan.bytes, Scan.lines, flatten_append, append_assoc]
    rfl
  rw [Scan.numberedPieces, hbytes]
  rw [Scan.lines] at hlines
  have hmore : ∀ first, readChunks s.eol first
      (if s.tail = [] then [] else [(s.chunks.flatten.length + 1, s.tail)]) =
      readAll first s.chunks.flatten.length s.tail := readChunks_tail s.tail
  rcases hchunks : s.chunks with _ | ⟨_ | ⟨l', c⟩, cs⟩
  · -- no group was cut off: everything is in the last chunk
    rw [hchunks] at hmore
    exact hmore .unknown
  · have hclen := hfull [] (by rw [hchunks]; exact mem_cons_self)
    rw [length_nil] at hclen
    omega
  · rw [hchunks] at hlines
    obtain ⟨rfl, rfl⟩ := List.cons.inj hlines
    rw [hchunks] at hmore
    apply readChunks_first hdec.known hdec.first
    · intro x hx
      exact hdec.line x (mem_append_left _ hx)
    · simpa [Scan.tail] using hfollows
    · rw [Nat.zero_add]
      exact hmore s.eol

theorem Scan.readChunks_marked (hrpc : 1 ≤ rpc) (hchunks : s.chunks = cs ++ [g ++ [m]])
    (hfull : ∀ c ∈ cs, c.length = rpc) (hm : isMarker m = true) (hline : s.line = []) (hgroup : s.group = [])
    (hdec : s.Decided l ls) (hfollows : Follows s.eol (ls.flatten ++ s.line)) (rest) :
    readChunks s.eol .unknown s.numberedPieces = readAll .unknown 0 (s.bytes ++ rest) := by
  have hlines : cs.flatten ++ (g ++ [m]) = l :: ls := by
    rw [← hdec.lines, Scan.lines, hchunks, hgroup]
    simp
  have hbytes : s.bytes = (cs.flatten ++ (g ++ [m])).flatten := by
    rw [Scan.bytes, hdec.lines, hlines, hline, append_nil]
  have htail : s.tail = [] := by rw [Scan.tail, hgroup, hline]; rfl
  rw [hline, append_nil] at hfollows
  rw [Scan.numberedPieces, htail, if_pos rfl, append_nil, hchunks, numbered_concat, hbytes, Nat.add_comm 1]
  have hlast : ∀ first, readChunks s.eol first [(cs.flatten.length + 1, (g ++ [m]).flatten)] =
      readAll first cs.flatten.length (g ++ [m]).flatten := by
    intro first
    exact andThen_eof _
  rcases cs with _ | ⟨_ | ⟨l', c⟩, cs⟩
  · have hsame : [].flatten ++ (g ++ [m]) = g ++ [m] := rfl
    rw [hsame] at hlines ⊢
    rw [numbered, nil_append, hlast, hlines]
    exact (readAll_marked_first hdec.known hlines.symm hdec.first hdec.line hfollows hm rest).symm
  · have hclen := hfull [] mem_cons_self
    rw [length_nil] at hclen
    omega
  · obtain ⟨rfl, rfl⟩ := List.cons.inj hlines
    have hmem : ∀ x ∈ g ++ [m], IsLine s.eol x := fun x hx => hdec.line x (mem_append_right _ hx)
    have hmarked := readAll_marked (n := ((l' :: c) :: cs).flatten.length) hdec.known hmem hm rest
    have hne : (c ++ cs.flatten ++ (g ++ [m])).flatten ≠ [] := by
      obtain ⟨w, rfl⟩ := isMarker_cons hm
      simp
    have hsplit : (((l' :: c) :: cs).flatten ++ (g ++ [m])).flatten ++ rest =
        ((l' :: c) :: cs).flatten.flatten ++ ((g ++ [m]).flatten ++ rest) := by simp
    rw [hsplit]
    apply @readChunks_first _ 0 _ hdec.known _ _ _ _ hdec.first
    · intro x hx
      exact hdec.line x (mem_append_left _ hx)
    · have hall := @follows_append _ rest _ hfollows hne
      simpa using hall
    · rw [Nat.zero_add, hlast, hmarked.1]

/-- Reading the groups one after the other is reading the stream. -/
theorem Scan.Sound.readChunks (h : s.Sound rpc input) (hrpc : 1 ≤ rpc) :
    readChunks s.eol .unknown s.numberedPieces = readAll .unknown 0 input := by
  rcases h.styled with ⟨heol, hlines, heoc, -⟩ | ⟨l, ls, hdec, hfollows, -⟩
  · rcases h.bytes with rfl | ⟨heoc', -⟩
    · have hchunks : s.chunks = [] := by
        rw [eq_nil_iff_forall_not_mem]
        intro c hc
        obtain ⟨-, hfull, -⟩ := h.grouped.open heoc
        have hflat : c = [] := by
          rw [Scan.lines, append_eq_nil_iff, flatten_eq_nil_iff] at hlines
          exact hlines.1 c hc
        have hclen := hfull c hc
        rw [hflat, length_nil] at hclen
        omega
      have hbytes : s.bytes = s.tail := by rw [Scan.bytes, Scan.lines, hchunks]; rfl
      rw [Scan.numberedPieces, hchunks, hbytes]
      exact readChunks_tail s.tail .unknown
    · rw [heoc] at heoc'
      cases heoc'
  · rcases h.grouped with ⟨heoc, -⟩ | ⟨heoc, hline, hgroup, cs, g, m, hchunks, hm, -, hfull, -⟩
    · rcases h.bytes with rfl | ⟨heoc', -⟩
      · exact readChunks_open hrpc h.grouped heoc hdec hfollows
      · rw [heoc] at heoc'
        cases heoc'
    · rcases h.bytes with hbytes | ⟨-, rest, hrest⟩
      · have hread := readChunks_marked hrpc hchunks hfull hm hline hgroup hdec hfollows []
        rw [append_nil, hbytes] at hread
        exact hread
      · rw [hrest]
        exact readChunks_marked hrpc hchunks hfull hm hline hgroup hdec hfollows rest

end Reading

end CopyLineScan
