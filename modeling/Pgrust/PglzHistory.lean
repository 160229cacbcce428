import Pgrust.LinkedChain
import Pgrust.PglzStream

/-!
The match history of the PGLZ compressor: a ring of 4096 entries on doubly linked hash chains.
After `n` positions were added, the chain of a bucket is exactly the last 4096 positions that
hash to it, newest first, and a match found along a chain is one the decompressor can replay.
-/

namespace PglzHistory

open LinkedChain PglzStream List Nat
open Function (update comp_update update_self update_of_ne update_eq_self)

def pglzMaxHistoryLists : Nat := 8192

def pglzHistorySize : Nat := 4096

structure HistEntry where
  next : Nat
  prev : Nat
  hindex : Nat
  pos : Nat

/-- The work arrays; an access outside them is a panic, `none` below. -/
structure Hist where
  start : Nat → Nat
  entries : Nat → HistEntry

def Hist.entry (hist : Hist) (i : Nat) : Option HistEntry :=
  if i < pglzHistorySize + 1 then some (hist.entries i) else none

def Hist.setEntry (hist : Hist) (i : Nat) (f : HistEntry → HistEntry) : Option Hist :=
  if i < pglzHistorySize + 1 then
    some { hist with entries := update hist.entries i (f (hist.entries i)) }
  else none

def Hist.head (hist : Hist) (b : Nat) : Option Nat := if b < pglzMaxHistoryLists then some (hist.start b) else none

def Hist.setHead (hist : Hist) (b v : Nat) : Option Hist :=
  if b < pglzMaxHistoryLists then some { hist with start := update hist.start b v } else none

/-- A byte read as the platform's `char`, widened to 32 bits. -/
def charOf (signed : Bool) (b : UInt8) : BitVec 32 :=
  if signed then b.toBitVec.signExtend 32 else b.toBitVec.setWidth 32

/-- `hist_idx`; `none` where it reads past the input. -/
def histIdx (signed : Bool) (input : List UInt8) (mask : Nat) (pos : Nat) : Option Nat :=
  match input.drop pos with
  | b₀ :: b₁ :: b₂ :: b₃ :: _ =>
    some ((((charOf signed b₀ <<< 6) ^^^ (charOf signed b₁ <<< 4) ^^^ (charOf signed b₂ <<< 2) ^^^
      charOf signed b₃) &&& BitVec.ofNat 32 mask).toNat)
  | b₀ :: _ => some ((charOf signed b₀ &&& BitVec.ofNat 32 mask).toNat)
  | [] => none

/-- The neighbour before the entry, or its bucket, is pointed past it. -/
def Hist.unlinkFront (hist : Hist) (old : HistEntry) : Option Hist :=
  if old.prev = 0 then hist.setHead old.hindex old.next
  else hist.setEntry old.prev (fun e => { e with next := old.next })

def Hist.unlinkBack (hist : Hist) (old : HistEntry) : Option Hist :=
  if old.next ≠ 0 then hist.setEntry old.next (fun e => { e with prev := old.prev }) else some hist

def Hist.unlink (hist : Hist) (hn : Nat) : Option Hist := do
  let old ← hist.entry hn
  let hist ← hist.unlinkFront old
  hist.unlinkBack old

def Hist.link (hist : Hist) (hn hindex pos : Nat) : Option Hist := do
  -- the head is read after the unlink: the recycled entry may have been it
  let head ← hist.head hindex
  let hist ← hist.setEntry hn (fun _ => { next := head, prev := 0, hindex := hindex % 2 ^ 16, pos := pos % 2 ^ 32 })
  let hist ← hist.setEntry head (fun e => { e with prev := hn })
  hist.setHead hindex hn

/-- The arrays with the ring's write position. -/
structure HistState where
  hist : Hist
  histNext : Nat
  recycle : Bool

def HistState.recycled (st : HistState) : Option Hist :=
  if st.recycle then st.hist.unlink st.histNext else some st.hist

/-- `Hist::add`. -/
def HistState.add (signed : Bool) (input : List UInt8) (mask : Nat) (st : HistState) (pos : Nat) :
    Option HistState := do
  let hindex ← histIdx signed input mask pos
  let hist ← st.recycled
  let hist ← hist.link st.histNext hindex pos
  if pglzHistorySize + 1 ≤ st.histNext + 1 then
    some { hist := hist, histNext := 1, recycle := true }
  else some { hist := hist, histNext := st.histNext + 1, recycle := st.recycle }

/-- How far the bytes at `hp` and `pos` agree, counting on from `len`. -/
def extendMatch (input : List UInt8) (hp pos : Nat) : Nat → Nat → Nat
  | 0, len => len
  | fuel + 1, len =>
    if pos + len < input.length ∧ input[hp + len]? = input[pos + len]? ∧ len < pglzMaxMatch then
      extendMatch input hp pos fuel (len + 1)
    else len

def slice (input : List UInt8) (pos len : Nat) : Option (List UInt8) :=
  if pos + len ≤ input.length then some ((input.drop pos).take len) else none

/-- The match length at `hp`; one of 16 or more bytes is first compared as a block. -/
def candidateLen (input : List UInt8) (hp pos len : Nat) : Option Nat :=
  if 16 ≤ len then do
    let here ← slice input pos len
    let there ← slice input hp len
    if here = there then some (extendMatch input hp pos pglzMaxMatch len) else some 0
  else some (extendMatch input hp pos pglzMaxMatch 0)

def better (len off thislen thisoff : Nat) : Nat × Nat := if len < thislen then (thislen, thisoff) else (len, off)

def findLoop (hist : Hist) (input : List UInt8) (pos : Nat) (goodDrop : Int) :
    Nat → Nat → Int → Nat × Nat → Option (Nat × Nat)
  | 0, hentno, _, best => if hentno = 0 then some best else none
  | fuel + 1, hentno, goodMatch, (len, off) =>
    if hentno = 0 then some (len, off)
    else (hist.entry hentno).bind fun hent =>
      if pos < hent.pos then none
      else if 0x0fff ≤ pos - hent.pos then some (len, off)
      else (candidateLen input hent.pos pos len).bind fun thislen =>
        if hent.next = 0 then some (better len off thislen (pos - hent.pos))
        else if goodMatch ≤ (better len off thislen (pos - hent.pos)).1 then
          some (better len off thislen (pos - hent.pos))
        else findLoop hist input pos goodDrop fuel hent.next
          (goodMatch - (goodMatch * goodDrop).tdiv 100) (better len off thislen (pos - hent.pos))

/-- `Hist::find_match`; the inner `none` is "no match", the outer a panic or an endless walk. -/
def Hist.findMatch (signed : Bool) (input : List UInt8) (mask : Nat) (goodMatch goodDrop : Int)
    (hist : Hist) (pos : Nat) : Option (Option (Nat × Nat)) := do
  let hindex ← histIdx signed input mask pos
  let hentno ← hist.head hindex
  let (len, off) ← findLoop hist input pos goodDrop (pglzHistorySize + 1) hentno goodMatch (0, 0)
  some (if 2 < len then some (len, off) else none)

section Index

variable {signed : Bool} {input : List UInt8} {mask : Nat}

theorem and_ofNat_le (v : BitVec 32) (mask : Nat) : (v &&& BitVec.ofNat 32 mask).toNat ≤ mask := by
  exact and_le_right.trans (mod_le _ _)

theorem histIdx_le {pos : Nat} (h : pos < input.length) :
    ∃ b, histIdx signed input mask pos = some b ∧ b ≤ mask := by
  have hne : input.drop pos ≠ [] := by
    intro hnil
    rw [drop_eq_nil_iff] at hnil
    omega
  rw [histIdx]
  split
  · exact ⟨_, rfl, and_ofNat_le _ _⟩
  · exact ⟨_, rfl, and_ofNat_le _ _⟩
  · exact absurd ‹_› hne

end Index

variable {len c i : Nat}

section Match

variable {input : List UInt8} {hp pos : Nat}

/-- The first `len` bytes at `hp` and at `pos` agree. -/
def Agree (input : List UInt8) (hp pos len : Nat) : Prop :=
  len ≤ pglzMaxMatch ∧ pos + len ≤ input.length ∧ ∀ i < len, input[hp + i]? = input[pos + i]?

theorem agree_zero (h : pos ≤ input.length) : Agree input hp pos 0 :=
  ⟨Nat.zero_le _, h, fun _ hi => absurd hi (Nat.not_lt_zero _)⟩

theorem extendMatch_agree (h : Agree input hp pos len) :
    Agree input hp pos (extendMatch input hp pos fuel len) := by
  induction fuel generalizing len with
  | zero => exact h
  | succ fuel ih =>
    rw [extendMatch]
    split_ifs with hmore
    · apply ih
      obtain ⟨hmax, hbound, hbytes⟩ := h
      refine ⟨hmore.2.2, hmore.1, ?_⟩
      intro i hi
      rcases Nat.lt_succ_iff_lt_or_eq.mp hi with hlt | rfl
      · exact hbytes i hlt
      · exact hmore.2.1
    · exact h

theorem slice_agree (hhere : slice input pos len = some here) (hthere : slice input hp len = some there)
    (heq : here = there) : ∀ i < len, input[hp + i]? = input[pos + i]? := by
  rw [slice] at hhere hthere
  split_ifs at hhere hthere
  cases hhere
  cases hthere
  intro i hi
  have hget := congrArg (fun l => l[i]?) heq
  simpa [getElem?_take, hi, getElem?_drop] using hget.symm

theorem candidateLen_agree {len : Nat} (hlt : hp < pos) (hlen : len ≤ pglzMaxMatch)
    (hbound : pos + len ≤ input.length) :
    ∃ k, candidateLen input hp pos len = some k ∧ Agree input hp pos k := by
  have hhere : slice input pos len = some ((input.drop pos).take len) := if_pos hbound
  have hthere : slice input hp len = some ((input.drop hp).take len) := if_pos (by omega)
  rw [candidateLen]
  split_ifs with hlong
  · rw [hhere, hthere]
    simp only [Option.bind_eq_bind, Option.bind_some]
    split_ifs with heq
    · exact ⟨_, rfl, extendMatch_agree ⟨hlen, hbound, slice_agree hhere hthere heq⟩⟩
    · exact ⟨0, rfl, agree_zero (by omega)⟩
  · exact ⟨_, rfl, extendMatch_agree (agree_zero (by omega))⟩

/-- What the search carries: no match yet, or one at an offset the tags can hold. -/
def Best (input : List UInt8) (pos : Nat) (best : Nat × Nat) : Prop :=
  best.1 ≤ pglzMaxMatch ∧ pos + best.1 ≤ input.length ∧
    (0 < best.1 → 0 < best.2 ∧ best.2 < 0x0fff ∧ best.2 ≤ pos ∧ Agree input (pos - best.2) pos best.1)

theorem better_best (hbest : Best input pos (len, off)) (hlt : hp < pos) (hnear : pos - hp < 0x0fff)
    (hk : Agree input hp pos k) : Best input pos (better len off k (pos - hp)) := by
  rw [better]
  split_ifs with hmore
  · refine ⟨hk.1, hk.2.1, ?_⟩
    intro _
    have hback : pos - (pos - hp) = hp := by omega
    refine ⟨by omega, hnear, by omega, ?_⟩
    rw [hback]
    exact hk
  · exact hbest

end Match

section Bucket

variable {idx : Nat → Nat} {b lo n p q : Nat}

/-- The positions of `[lo, n)` that hash to `b`, newest first. -/
def bucket (idx : Nat → Nat) (b lo n : Nat) : List Nat :=
  ((List.range' lo (n - lo)).filter (fun p => idx p = b)).reverse

/-- The ring entry of a position. -/
def slot (p : Nat) : Nat := p % pglzHistorySize + 1

theorem mem_bucket : p ∈ bucket idx b lo n ↔ lo ≤ p ∧ p < n ∧ idx p = b := by
  simp only [bucket, mem_reverse, mem_filter, mem_range'_1, decide_eq_true_eq]
  omega

theorem bucket_succ (h : lo ≤ n) :
    bucket idx b lo (n + 1) = if idx n = b then n :: bucket idx b lo n else bucket idx b lo n := by
  have hlen : n + 1 - lo = n - lo + 1 := by omega
  have hlast : lo + 1 * (n - lo) = n := by omega
  rw [bucket, hlen, range'_concat, hlast, filter_append, reverse_append]
  split_ifs with hb
  · rw [filter_singleton, decide_eq_true hb]
    rfl
  · rw [filter_singleton, decide_eq_false hb]
    rfl

theorem bucket_drop (h : lo < n) :
    bucket idx b lo n = bucket idx b (lo + 1) n ++ if idx lo = b then [lo] else [] := by
  have hlen : n - lo = n - (lo + 1) + 1 := by omega
  rw [bucket, hlen, range'_succ, filter_cons]
  simp only [decide_eq_true_eq]
  split_ifs with hb
  · rw [reverse_cons]
    rfl
  · rw [append_nil]
    rfl

theorem bucket_descending : (bucket idx b lo n).Pairwise (· > ·) := by
  rw [bucket, pairwise_reverse]
  apply List.Pairwise.filter
  exact pairwise_lt_range'

section

variable (hn : n - lo ≤ pglzHistorySize)
include hn

theorem slot_inj (hp : lo ≤ p) (hpn : p < n) (hq : lo ≤ q) (hqn : q < n) (h : slot p = slot q) : p = q := by
  simp only [slot, pglzHistorySize] at *
  omega

theorem slots_nodup : ((bucket idx b lo n).map slot).Nodup := by
  apply List.Nodup.map_on
  · intro p hp q hq h
    rw [mem_bucket] at hp hq
    exact slot_inj hn hp.1 hp.2.1 hq.1 hq.2.1 h
  · exact bucket_descending.imp Nat.ne_of_gt

theorem bucket_length : (bucket idx b lo n).length ≤ pglzHistorySize := by
  rw [bucket, length_reverse]
  exact (length_filter_le _ _).trans (by rw [length_range']; exact hn)

end

theorem slot_pos (p : Nat) : slot p ≠ 0 := succ_ne_zero _

theorem slot_lt (p : Nat) : slot p < pglzHistorySize + 1 := succ_lt_succ (mod_lt p (by decide))

end Bucket

section Window

def Hist.next (hist : Hist) : Nat → Nat := HistEntry.next ∘ hist.entries

def Hist.prev (hist : Hist) : Nat → Nat := HistEntry.prev ∘ hist.entries

/-- The arrays hold the positions `[lo, n)`: each on the chain of its bucket, newest first. -/
structure Hist.Holds (hist : Hist) (idx : Nat → Nat) (hashsz lo n : Nat) : Prop where
  window : n - lo ≤ pglzHistorySize
  chain : ∀ b < hashsz, Chain hist.next hist.prev 0 (hist.start b) ((bucket idx b lo n).map slot)
  entry : ∀ p, lo ≤ p → p < n →
    idx p < hashsz ∧ (hist.entries (slot p)).hindex = idx p ∧ (hist.entries (slot p)).pos = p

variable {hist : Hist} {idx : Nat → Nat} {hashsz lo n b : Nat}

theorem mem_slots : c ∈ (bucket idx b lo n).map slot ↔ ∃ p, (lo ≤ p ∧ p < n ∧ idx p = b) ∧ slot p = c := by
  simp [mem_bucket]

/-- Chains of different buckets share no entry. -/
theorem Hist.Holds.disjoint (h : hist.Holds idx hashsz lo n) (hne : b ≠ b')
    (hc : c ∈ (bucket idx b lo n).map slot) : c ∉ (bucket idx b' lo n).map slot := by
  intro hc'
  obtain ⟨p, ⟨hp, hpn, hpb⟩, rfl⟩ := mem_slots.mp hc
  obtain ⟨q, ⟨hq, hqn, hqb⟩, heq⟩ := mem_slots.mp hc'
  rw [slot_inj h.window hq hqn hp hpn heq] at hqb
  exact hne (hpb.symm.trans hqb)

theorem setEntry_next : HistEntry.next ∘ update hist.entries i e = update hist.next i e.next := comp_update _ _ _ _

theorem setEntry_prev : HistEntry.prev ∘ update hist.entries i e = update hist.prev i e.prev := comp_update _ _ _ _

/-- An update of the links leaves the position and the bucket of every entry. -/
theorem setEntry_fields {e : HistEntry} {i : Nat} (hindex : e.hindex = (hist.entries i).hindex)
    (hpos : e.pos = (hist.entries i).pos) (c : Nat) :
    (update hist.entries i e c).hindex = (hist.entries c).hindex ∧
      (update hist.entries i e c).pos = (hist.entries c).pos := by
  by_cases hc : c = i
  · rw [hc, update_self]
    exact ⟨hindex, hpos⟩
  · rw [update_of_ne hc]
    exact ⟨rfl, rfl⟩

theorem setEntry_eq (h : i < pglzHistorySize + 1) :
    hist.setEntry i f = some { hist with entries := update hist.entries i (f (hist.entries i)) } := if_pos h

theorem setHead_eq (h : b < pglzMaxHistoryLists) :
    hist.setHead b v = some { hist with start := update hist.start b v } := if_pos h

theorem lt_of_mem_slots (h : c ∈ (bucket idx b lo n).map slot) : c < pglzHistorySize + 1 := by
  obtain ⟨p, -, rfl⟩ := mem_slots.mp h
  exact slot_lt p

/-- The oldest position ends its chain, so only the link to it changes. -/
theorem Hist.Holds.unlink (h : hist.Holds idx hashsz lo n) (hlo : lo < n) (hsz : hashsz ≤ pglzMaxHistoryLists) :
    ∃ hist', hist.unlink (slot lo) = some hist' ∧ hist'.Holds idx hashsz (lo + 1) n := by
  obtain ⟨hidx, hhindex, -⟩ := h.entry lo (Nat.le_refl lo) hlo
  have hwindow : n - (lo + 1) ≤ pglzHistorySize := by
    have := h.window
    omega
  have hslots : (bucket idx (idx lo) lo n).map slot =
      (bucket idx (idx lo) (lo + 1) n).map slot ++ slot lo :: [] := by
    rw [bucket_drop hlo, if_pos rfl, map_append]
    rfl
  have hother : ∀ b, b ≠ idx lo → bucket idx b lo n = bucket idx b (lo + 1) n := by
    intro b hb
    rw [bucket_drop hlo, if_neg hb.symm, append_nil]
  have hchain := h.chain (idx lo) hidx
  rw [hslots] at hchain
  have hnd : ((bucket idx (idx lo) (lo + 1) n).map slot ++ slot lo :: []).Nodup := hslots ▸ slots_nodup h.window
  have herased := hchain.erase hnd hchain.zero_not_mem
  have hnext : (hist.entries (slot lo)).next = 0 := hchain.next_eq
  have hprev : (hist.entries (slot lo)).prev = ((bucket idx (idx lo) (lo + 1) n).map slot).getLastD 0 :=
    hchain.prev_eq
  have hentry : hist.entry (slot lo) = some (hist.entries (slot lo)) := if_pos (slot_lt lo)
  rw [append_nil] at herased
  rw [Hist.unlink, hentry]
  simp only [Option.bind_eq_bind, Option.bind_some, Hist.unlinkFront, Hist.unlinkBack, hnext]
  generalize hs : (bucket idx (idx lo) (lo + 1) n).map slot = front at *
  cases front with
  | nil =>
    have hzero : (hist.entries (slot lo)).prev = 0 := hprev
    rw [if_pos hzero, hhindex, setHead_eq (hidx.trans_le hsz)]
    refine ⟨_, rfl, hwindow, ?_, fun p hp => h.entry p (by omega)⟩
    intro b hb
    by_cases hb' : b = idx lo
    · rw [hb', hs]
      exact update_self _ _ _
    · have hkeep := h.chain b hb
      rw [hother b hb'] at hkeep
      simp only [update_of_ne hb']
      exact hkeep
  | cons =>
    have hmem : (hist.entries (slot lo)).prev ∈ (bucket idx (idx lo) (lo + 1) n).map slot := by
      rw [hprev, hs, getLastD_cons]
      exact getLastD_mem_cons
    have hne : (hist.entries (slot lo)).prev ≠ 0 := by
      intro hzero
      rw [hzero, hs] at hmem
      exact herased.zero_not_mem hmem
    rw [if_neg hne, setEntry_eq (lt_of_mem_slots hmem)]
    refine ⟨_, rfl, hwindow, ?_, ?_⟩
    · intro b hb
      by_cases hb' : b = idx lo
      · subst hb'
        rw [hs]
        apply herased.congr
        · intro d _
          rw [Hist.next, setEntry_next]
          exact congrFun (congrArg _ hnext.symm) d
        · intro d hd
          have hd0 : d ≠ hist.next (slot lo) := by
            intro heq
            rw [heq.trans hnext] at hd
            exact herased.zero_not_mem hd
          rw [Hist.prev, setEntry_prev, update_of_ne hd0]
          exact congrFun (update_eq_self _ _) d
      · have hkeep := h.chain b hb
        have hout : (hist.entries (slot lo)).prev ∉ (bucket idx b lo n).map slot := by
          apply h.disjoint (Ne.symm hb')
          rw [hslots, ← hs]
          exact mem_append_left _ hmem
        rw [← hother b hb']
        apply hkeep.congr
        · intro d hd
          rw [Hist.next, setEntry_next]
          exact update_of_mem hout hd _
        · intro d _
          rw [Hist.prev, setEntry_prev]
          exact congrFun (update_eq_self _ _) d
    · intro p hp hpn
      obtain ⟨hb, hhindex, hpos⟩ := h.entry p (by omega) hpn
      obtain ⟨h₁, h₂⟩ := @setEntry_fields hist
        { hist.entries (hist.entries (slot lo)).prev with next := 0 } _ rfl rfl (slot p)
      exact ⟨hb, h₁.trans hhindex, h₂.trans hpos⟩

/-- The arrays after `link`. -/
def Hist.linked (hist : Hist) (hn hindex pos : Nat) : Hist :=
  let new : HistEntry := { next := hist.start hindex, prev := 0, hindex := hindex, pos := pos }
  let entries := update hist.entries hn new
  { start := update hist.start hindex hn
    entries := update entries (hist.start hindex) { entries (hist.start hindex) with prev := hn } }

theorem linked_next : (hist.linked hn hindex pos).next = update hist.next hn (hist.start hindex) := by
  rw [Hist.next, Hist.linked, comp_update]
  exact (update_eq_self _ _).trans (comp_update _ _ _ _)

theorem linked_prev : (hist.linked hn hindex pos).prev = update (update hist.prev hn 0) (hist.start hindex) hn := by
  rw [Hist.prev, Hist.linked, comp_update, comp_update]
  rfl

theorem linked_fields (hn hindex pos c : Nat) :
    ((hist.linked hn hindex pos).entries c).hindex = (if c = hn then hindex else (hist.entries c).hindex) ∧
      ((hist.linked hn hindex pos).entries c).pos = if c = hn then pos else (hist.entries c).pos := by
  let placed : Hist := ⟨hist.start, update hist.entries hn ⟨hist.start hindex, 0, hindex, pos⟩⟩
  obtain ⟨hhindex, hpos⟩ := @setEntry_fields placed
    { placed.entries (hist.start hindex) with prev := hn } (hist.start hindex) rfl rfl c
  have hplaced : (placed.entries c).hindex = (if c = hn then hindex else (hist.entries c).hindex) ∧
      (placed.entries c).pos = if c = hn then pos else (hist.entries c).pos := by
    simp only [placed]
    split_ifs with hc
    · rw [hc, update_self]
      exact ⟨rfl, rfl⟩
    · rw [update_of_ne hc]
      exact ⟨rfl, rfl⟩
  exact ⟨hhindex.trans hplaced.1, hpos.trans hplaced.2⟩

section

variable (h : hist.Holds idx hashsz lo n)
include h

theorem Hist.Holds.head_mem (hb : b < hashsz) : hist.start b = 0 ∨ hist.start b ∈ (bucket idx b lo n).map slot := by
  have hhead := (h.chain b hb).head_eq
  cases hs : (bucket idx b lo n).map slot with
  | nil =>
    rw [hs] at hhead
    exact .inl hhead
  | cons =>
    rw [hs] at hhead
    exact .inr (by rw [hhead]; exact mem_cons_self)

theorem Hist.Holds.link_eq (hsz : hashsz ≤ pglzMaxHistoryLists) (hidx : idx n < hashsz) (hn : n < 2 ^ 32) :
    hist.link (slot n) (idx n) n = some (hist.linked (slot n) (idx n) n) := by
  have hlists : idx n < pglzMaxHistoryLists := hidx.trans_le hsz
  have hhead : hist.head (idx n) = some (hist.start (idx n)) := if_pos hlists
  have hin : hist.start (idx n) < pglzHistorySize + 1 := by
    rcases h.head_mem hidx with hzero | hmem
    · rw [hzero]
      exact succ_pos _
    · exact lt_of_mem_slots hmem
  have hindex : idx n % 2 ^ 16 = idx n := mod_eq_of_lt (hlists.trans (by decide))
  rw [Hist.link, hhead]
  simp only [Option.bind_eq_bind, Option.bind_some, setEntry_eq (slot_lt n), setEntry_eq hin,
    setHead_eq hlists, hindex, mod_eq_of_lt hn]
  rfl

/-- A new position goes to the front of its chain; the other chains do not meet its entry. -/
theorem Hist.Holds.linked (hlo : lo ≤ n) (hroom : n - lo < pglzHistorySize) (hidx : idx n < hashsz) :
    (hist.linked (slot n) (idx n) n).Holds idx hashsz lo (n + 1) := by
  have hwindow : n + 1 - lo ≤ pglzHistorySize := by omega
  have hfresh : ∀ b, slot n ∉ (bucket idx b lo n).map slot := by
    intro b hmem
    obtain ⟨p, ⟨hp, hpn, -⟩, heq⟩ := mem_slots.mp hmem
    have := slot_inj hwindow hp (by omega) hlo (lt_succ_self n) heq
    omega
  refine ⟨hwindow, ?_, ?_⟩
  · intro b hb
    rw [bucket_succ hlo, linked_next, linked_prev]
    by_cases hb' : b = idx n
    · subst hb'
      rw [if_pos rfl]
      have hstart : (hist.linked (slot n) (idx n) n).start (idx n) = slot n := update_self _ _ _
      rw [hstart]
      exact (h.chain (idx n) hb).push (slots_nodup h.window) (slot_pos n) (hfresh (idx n))
    · have hkeep := h.chain b hb
      have hstart : (hist.linked (slot n) (idx n) n).start b = hist.start b := update_of_ne hb' _ _
      have hhead : hist.start (idx n) ∉ (bucket idx b lo n).map slot := by
        rcases h.head_mem hidx with hzero | hmem
        · rw [hzero]
          exact hkeep.zero_not_mem
        · exact h.disjoint (Ne.symm hb') hmem
      rw [if_neg (Ne.symm hb'), hstart]
      apply hkeep.congr
      · intro d hd
        exact update_of_mem (hfresh b) hd _
      · intro d hd
        rw [update_of_mem hhead hd, update_of_mem (hfresh b) hd]
  · intro p hp hpn
    obtain ⟨hhindex, hpos⟩ := @linked_fields hist (slot n) (idx n) n (slot p)
    rw [hhindex, hpos]
    rcases Nat.lt_succ_iff_lt_or_eq.mp hpn with hlt | rfl
    · have hne : slot p ≠ slot n := by
        intro heq
        exact hfresh (idx p) (mem_slots.mpr ⟨p, ⟨hp, hlt, rfl⟩, heq⟩)
      rw [if_neg hne, if_neg hne]
      exact h.entry p hp hlt
    · rw [if_pos rfl, if_pos rfl]
      exact ⟨hidx, rfl, rfl⟩

end

/-- The compressor's history after the positions below `n` were added. -/
structure HistState.Holds (st : HistState) (idx : Nat → Nat) (hashsz n : Nat) : Prop where
  next : st.histNext = slot n
  recycle : st.recycle = decide (pglzHistorySize ≤ n)
  hist : st.hist.Holds idx hashsz (n - pglzHistorySize) n

theorem HistState.Holds.recycled {st : HistState} (h : st.Holds idx hashsz n) (hsz : hashsz ≤ pglzMaxHistoryLists) :
    ∃ hist, st.recycled = some hist ∧ hist.Holds idx hashsz (n + 1 - pglzHistorySize) n := by
  rw [HistState.recycled, h.recycle, h.next]
  by_cases hfull : pglzHistorySize ≤ n
  · have hslot : slot n = slot (n - pglzHistorySize) := by
      rw [slot, slot, ← mod_eq_sub_mod hfull]
    have hlo : n + 1 - pglzHistorySize = n - pglzHistorySize + 1 := by omega
    rw [if_pos (decide_eq_true hfull), hslot, hlo]
    exact h.hist.unlink (sub_lt (Nat.lt_of_lt_of_le (by decide) hfull) (by decide)) hsz
  · have hlo : n + 1 - pglzHistorySize = n - pglzHistorySize := by omega
    rw [if_neg (by simp [hfull]), hlo]
    exact ⟨_, rfl, h.hist⟩

theorem HistState.Holds.add {signed : Bool} {input : List UInt8} {mask : Nat} {st : HistState}
    (h : st.Holds idx hashsz n) (hsz : hashsz ≤ pglzMaxHistoryLists) (hn : n < 2 ^ 32)
    (hhash : histIdx signed input mask n = some (idx n)) (hidx : idx n < hashsz) :
    ∃ st', st.add signed input mask n = some st' ∧ st'.Holds idx hashsz (n + 1) := by
  obtain ⟨hist, hrecycled, hhist⟩ := h.recycled hsz
  have hlo : n + 1 - pglzHistorySize ≤ n := by
    simp only [pglzHistorySize]
    omega
  have hroom : n - (n + 1 - pglzHistorySize) < pglzHistorySize := by
    omega
  have hlinked := hhist.linked hlo hroom hidx
  rw [HistState.add, hhash]
  simp only [Option.bind_eq_bind, Option.bind_some, hrecycled, h.next, hhist.link_eq hsz hidx hn]
  split_ifs with hwrap
  · refine ⟨_, rfl, ?_, ?_, hlinked⟩
    · simp only [slot, pglzHistorySize] at hwrap ⊢
      omega
    · have hfull : pglzHistorySize ≤ n + 1 := by
        simp only [slot, pglzHistorySize] at hwrap ⊢
        omega
      exact (decide_eq_true hfull).symm
  · refine ⟨_, rfl, ?_, ?_, hlinked⟩
    · simp only [slot, pglzHistorySize] at hwrap ⊢
      omega
    · rw [h.recycle]
      apply decide_eq_decide.mpr
      simp only [slot, pglzHistorySize] at hwrap ⊢
      omega

end Window

section Find

variable {hist : Hist} {idx : Nat → Nat} {hashsz : Nat} {input : List UInt8} {pos : Nat}

/-- The walk ends, and what it returns is a match at `pos`. -/
theorem findLoop_best {goodDrop goodMatch : Int} {fuel p e : Nat} {best : Nat × Nat} {ps : List Nat}
    (hchain : Chain hist.next hist.prev p e (ps.map slot))
    (hps : ∀ q ∈ ps, q < pos ∧ (hist.entries (slot q)).pos = q)
    (hfuel : ps.length ≤ fuel) (hbest : Best input pos best) :
    ∃ best', findLoop hist input pos goodDrop fuel e goodMatch best = some best' ∧ Best input pos best' := by
  induction ps generalizing fuel p e best goodMatch with
  | nil =>
    have hzero : e = 0 := hchain
    refine ⟨best, ?_, hbest⟩
    cases fuel with
    | zero => exact if_pos hzero
    | succ => rw [findLoop, if_pos hzero]
  | cons q ps ih =>
    cases fuel with
    | zero => exact absurd hfuel (not_succ_le_zero _)
    | succ =>
      obtain ⟨len, off⟩ := best
      obtain ⟨rfl, hne, -, hrest⟩ := hchain
      obtain ⟨hlt, hpos⟩ := hps q mem_cons_self
      have hentry : hist.entry (slot q) = some (hist.entries (slot q)) := if_pos (slot_lt q)
      rw [findLoop, if_neg hne, hentry, Option.bind_some, hpos, if_neg (Nat.not_lt.mpr hlt.le)]
      by_cases hfar : 0x0fff ≤ pos - q
      · rw [if_pos hfar]
        exact ⟨_, rfl, hbest⟩
      · obtain ⟨k, hk, hagree⟩ := @candidateLen_agree input q pos len hlt hbest.1 hbest.2.1
        have hbetter := better_best hbest hlt (Nat.not_le.mp hfar) hagree
        rw [hk, Option.bind_some]
        split_ifs with hlast hgood
        · exact ⟨_, rfl, hbetter⟩
        · exact ⟨_, rfl, hbetter⟩
        · exact ih hrest (fun q' hq' => hps q' (mem_cons_of_mem q hq')) (le_of_succ_le_succ hfuel) hbetter

/-- `find_match` comes back, and a match it reports is one the decoder can copy. -/
theorem findMatch_covers (h : hist.Holds idx hashsz lo pos) (hsz : hashsz ≤ pglzMaxHistoryLists)
    (hpos : pos < input.length) (hhash : histIdx signed input mask pos = some (idx pos))
    (hidx : idx pos < hashsz) :
    ∃ r, hist.findMatch signed input mask goodMatch goodDrop pos = some r ∧
      ∀ len off, r = some (len, off) → (Item.copy len off).Covers input pos := by
  have hhead : hist.head (idx pos) = some (hist.start (idx pos)) := if_pos (hidx.trans_le hsz)
  have hstart : Best input pos (0, 0) := ⟨Nat.zero_le _, hpos.le, fun h0 => absurd h0 (Nat.lt_irrefl 0)⟩
  have hps : ∀ q ∈ bucket idx (idx pos) lo pos, q < pos ∧ (hist.entries (slot q)).pos = q := by
    intro q hq
    obtain ⟨hlo, hlt, -⟩ := mem_bucket.mp hq
    exact ⟨hlt, (h.entry q hlo hlt).2.2⟩
  have hfuel : (bucket idx (idx pos) lo pos).length ≤ pglzHistorySize + 1 :=
    le_succ_of_le (bucket_length h.window)
  obtain ⟨⟨len, off⟩, hloop, hmax, hbound, hfound⟩ :=
    @findLoop_best _ _ _ goodDrop goodMatch _ _ _ _ _ (h.chain (idx pos) hidx) hps hfuel hstart
  rw [Hist.findMatch, hhash]
  simp only [Option.bind_eq_bind, Option.bind_some, hhead, hloop]
  refine ⟨_, rfl, ?_⟩
  intro len' off' hsome
  split_ifs at hsome with hlen
  cases hsome
  obtain ⟨hoff, hnear, hback, hagree⟩ := hfound (by omega)
  exact ⟨hlen, hmax, hoff, hnear.trans_le (by decide), hback, hbound, hagree.2.2⟩

end Find

section Order

/-- The walk along `next` from entry `e` meets `cs` and ends. -/
def Hist.Walks (hist : Hist) : Nat → List Nat → Prop
  | e, [] => e = 0
  | e, c :: cs => e = c ∧ c ≠ 0 ∧ hist.Walks (hist.entries c).next cs

/-- The chain of a bucket ends, meets no entry twice and goes from newer to older positions. -/
def Hist.Ordered (hist : Hist) (b : Nat) : Prop :=
  ∃ cs, hist.Walks (hist.start b) cs ∧ cs.Nodup ∧ (cs.map fun c => (hist.entries c).pos).Pairwise (· > ·)

variable {hist : Hist}

theorem Hist.Walks.of_chain (h : Chain hist.next hist.prev p e cs) : hist.Walks e cs := by
  induction cs generalizing p e with
  | nil => exact h
  | cons c cs ih => exact ⟨h.1, h.2.1, ih h.2.2.2⟩

theorem Hist.Holds.ordered (h : hist.Holds idx hashsz lo n) (hb : b < hashsz) : hist.Ordered b := by
  refine ⟨_, .of_chain (h.chain b hb), slots_nodup h.window, ?_⟩
  have hpos : ((bucket idx b lo n).map slot).map (fun c => (hist.entries c).pos) = bucket idx b lo n := by
    rw [map_map]
    calc
      _ = (bucket idx b lo n).map id := by
        apply map_congr_left
        intro p hp
        obtain ⟨hlo, hlt, -⟩ := mem_bucket.mp hp
        exact (h.entry p hlo hlt).2.2
      _ = _ := map_id _
  rw [hpos]
  exact bucket_descending

end Order

end PglzHistory
