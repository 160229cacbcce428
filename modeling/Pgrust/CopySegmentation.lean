import Pgrust.CopyReadLine

/-!
Parallel COPY reads what serial COPY reads: the chunks of the segmentator, each read through a chunk
cursor from fresh buffers, give the lines, the line numbers and the ending that one reader of the
whole stream gives.
-/

namespace CopySegmentation

open CopyText CopyLineScan CopySegmentator CopyReadLine Buffers List

variable {eol : EolType} {rpc : Nat}

section Chunks

end Chunks

section Cuts

variable {enc : Encoding}

/-- The last byte, if there is one, is a newline byte. -/
def NewlineEnd (w : List UInt8) : Prop := ∀ b ∈ w.getLast?, b = lf ∨ b = ret

theorem Closes.newlineEnd (h : Closes eol p w) : NewlineEnd w := by
  induction h with
  | here hend =>
    rintro b ⟨⟩
    cases eol with
    | unknown => exact absurd hend id
    | nl | crnl => exact .inl hend.1
    | cr => exact .inr hend.1
  | @more p w b _ hw ih =>
    have hne : w ≠ [] := ne_nil_of_length_pos hw.length_pos
    rw [NewlineEnd, getLast?_cons_of_ne_nil hne]
    exact ih

theorem newlineEnd_flatten {ls : List (List UInt8)} (h : ∀ l ∈ ls, IsLine eol l) : NewlineEnd ls.flatten := by
  cases ls using List.reverseRecOn with
  | nil => nofun
  | append_singleton ls l =>
    have hl : IsLine eol l := h l (mem_append_right ls mem_cons_self)
    have hne : l ≠ [] := ne_nil_of_length_pos hl.length_pos
    rw [NewlineEnd, flatten_append, flatten_singleton, getLast?_append, getLast?_eq_some_getLast hne]
    intro b hb
    exact Closes.newlineEnd hl b (by rw [getLast?_eq_some_getLast hne]; exact hb)

theorem Valid.cut (hw : NewlineEnd w) (h : enc.Valid (w ++ t)) : enc.Valid w ∧ enc.Valid t := by
  cases w using List.reverseRecOn with
  | nil => exact ⟨.nil, h⟩
  | append_singleton w b =>
    have hb : b < 128 := by
      rcases hw b (by simp) with rfl | rfl <;> decide
    exact h.split hb (by simp)

end Cuts

section Spec

/-- Behind `n` lines, every chunk carries the number of its first line, and all but the last one
hold `rpc` lines. -/
def Counted (eol : EolType) (rpc : Nat) : Nat → List (Nat × List UInt8) → Prop
  | _, [] => True
  | n, (lineno, bytes) :: chunks =>
    lineno = n + 1 ∧ (chunks ≠ [] → lineCount eol [] bytes = rpc) ∧
      Counted eol rpc (n + lineCount eol [] bytes) chunks

theorem exists_closes (heol : eol ≠ .unknown) (p : List UInt8) : ∃ w, Closes eol p w := by
  have hfree : ¬ Escaped (p ++ [0]) := by
    rw [escaped_concat]
    exact fun h => absurd h.1 (by decide)
  have hpass : ¬ EndsAt eol p 0 := not_endsAt_of_ne (by decide) (by decide)
  cases eol with
  | unknown => exact absurd rfl heol
  | nl => exact ⟨[0, lf], .more hpass (.here ⟨rfl, hfree⟩)⟩
  | cr => exact ⟨[0, ret], .more hpass (.here ⟨rfl, hfree⟩)⟩
  | crnl =>
    refine ⟨[0, ret, lf], .more hpass (.more ?_ (.here ⟨rfl, ?_⟩))⟩
    · exact fun h => absurd h.1 (by decide)
    · exact crEnd_concat.mpr ⟨rfl, hfree⟩

theorem lineCount_of_closes (h : Closes eol q (p ++ w)) (hw : w ≠ []) : lineCount eol q p = 0 := by
  induction p generalizing q with
  | nil => rfl
  | cons b p ih =>
    rcases closes_cons.mp h with ⟨-, hnil⟩ | ⟨hend, hrest⟩
    · exact absurd (append_eq_nil_iff.mp hnil).2 hw
    · rw [lineCount, if_neg hend]
      exact ih hrest

theorem Open.lineCount (h : Open eol p) (heol : eol ≠ .unknown) : lineCount eol [] p = 0 := by
  obtain ⟨w, hw⟩ := exists_closes heol p
  exact lineCount_of_closes (h w hw) (ne_nil_of_length_pos hw.length_pos)

theorem counted_numbered (hlines : ∀ c ∈ cs, ∀ l ∈ c, IsLine eol l)
    (hfull : ∀ pre c post, cs = pre ++ c :: post → post ≠ [] ∨ more ≠ [] → c.length = rpc)
    (hmore : Counted eol rpc (n + cs.flatten.length) more) :
    Counted eol rpc n (numbered (n + 1) cs ++ more) := by
  induction cs generalizing n with
  | nil => exact hmore
  | cons c cs ih =>
    have hcount : lineCount eol [] c.flatten = c.length := lineCount_lines (hlines c mem_cons_self)
    refine ⟨rfl, ?_, ?_⟩
    · intro hne
      rw [hcount]
      apply hfull [] c cs rfl
      cases cs with
      | nil => exact .inr hne
      | cons c' cs => exact .inl (cons_ne_nil c' cs)
    · rw [hcount, Nat.add_right_comm]
      apply ih (fun c' hc' => hlines c' (mem_cons_of_mem c hc'))
      · intro pre c' post heq
        exact hfull (c :: pre) c' post (by rw [heq, cons_append])
      · rw [flatten_cons, length_append, ← Nat.add_assoc] at hmore
        exact hmore

end Spec

section Scanned

variable {s : Scan} {enc : Encoding}

theorem Styled.isLine (h : s.Styled) : ∀ l ∈ s.lines, IsLine s.eol l := by
  rcases h with ⟨-, hlines, -⟩ | ⟨l, ls, hdec, -⟩
  · rw [hlines]
    simp
  · rw [hdec.lines]
    intro l' hl'
    rcases mem_cons.mp hl' with rfl | hl'
    · exact hdec.first.closes
    · exact hdec.line l' hl'

theorem chunk_lines (hc : c ∈ s.chunks) (hl : l ∈ c) : l ∈ s.lines := mem_append_left _ (mem_flatten_of_mem hc hl)

theorem Grouped.tail_nil (h : s.Grouped rpc) (heoc : s.eoc = true) : s.tail = [] := by
  rcases h with ⟨hlive, -⟩ | ⟨-, hline, hgroup, -⟩
  · rw [heoc] at hlive
    cases hlive
  · rw [Scan.tail, hline, hgroup]
    rfl

theorem Sound.counted (h : s.Sound rpc input) : Counted s.eol rpc 0 s.numberedPieces := by
  have hlines := Styled.isLine h.styled
  apply counted_numbered (fun c hc l hl => hlines l (chunk_lines hc hl))
  · intro pre c post heq hmore
    rcases h.grouped with ⟨-, -, hfull, -⟩ | ⟨heoc, -, -, cs, g, m, hchunks, -, -, hfull, -⟩
    · exact hfull c (by rw [heq]; simp)
    · -- only the last group holds the marker line
      have hpost : post ≠ [] := by
        rcases hmore with hpost | htail
        · exact hpost
        · rw [if_pos (Grouped.tail_nil h.grouped heoc)] at htail
          exact absurd rfl htail
      obtain ⟨post, x, rfl⟩ := (eq_nil_or_concat post).resolve_left hpost
      rw [hchunks, concat_eq_append, ← cons_append, ← append_assoc] at heq
      obtain ⟨rfl, -⟩ := append_inj' heq rfl
      exact hfull c (by simp)
  · rw [Nat.zero_add]
    split_ifs
    · exact trivial
    · exact ⟨rfl, fun hne => absurd rfl hne, trivial⟩

theorem valid_numbered {cs : List (List (List UInt8))} {t : List UInt8} {n : Nat}
    (hlines : ∀ c ∈ cs, ∀ l ∈ c, IsLine eol l) (h : enc.Valid (cs.flatten.flatten ++ t)) :
    (∀ x ∈ numbered n cs, enc.Valid x.2) ∧ enc.Valid t := by
  induction cs generalizing n with
  | nil => exact ⟨by simp [numbered], h⟩
  | cons c cs ih =>
    rw [flatten_cons, flatten_append, append_assoc] at h
    obtain ⟨hc, hrest⟩ := Valid.cut (newlineEnd_flatten (hlines c mem_cons_self)) h
    obtain ⟨hcs, ht⟩ := @ih (n + c.length) (fun c' hc' => hlines c' (mem_cons_of_mem c hc')) hrest
    refine ⟨?_, ht⟩
    intro x hx
    rcases mem_cons.mp hx with rfl | hx
    · exact hc
    · exact hcs x hx

/-- The chunks of valid bytes are valid: they are cut behind newlines. -/
theorem Sound.valid (h : s.Sound rpc input) (hinput : enc.Valid input) : ∀ x ∈ s.numberedPieces, enc.Valid x.2 := by
  have hlines := Styled.isLine h.styled
  obtain ⟨rest, hsplit, hrest⟩ : ∃ rest, input = s.bytes ++ rest ∧ (rest = [] ∨ s.eoc = true) := by
    rcases h.bytes with heq | ⟨heoc, rest, hrest⟩
    · exact ⟨[], by rw [heq, append_nil], .inl rfl⟩
    · exact ⟨rest, hrest, .inr heoc⟩
  have hbytes : input = s.chunks.flatten.flatten ++ (s.tail ++ rest) := by
    rw [hsplit, Scan.bytes, Scan.lines, Scan.tail, flatten_append]
    simp
  rw [hbytes] at hinput
  obtain ⟨hchunks, htail⟩ := valid_numbered (fun c hc l hl => hlines l (chunk_lines hc hl)) hinput
  intro x hx
  rcases mem_append.mp hx with hx | hx
  · exact hchunks x hx
  · split_ifs at hx with hnil
    · cases hx
    · rcases hrest with rfl | heoc
      · rw [mem_singleton.mp hx]
        rw [append_nil] at htail
        exact htail
      · exact absurd (Grouped.tail_nil h.grouped heoc) hnil

end Scanned

end CopySegmentation
