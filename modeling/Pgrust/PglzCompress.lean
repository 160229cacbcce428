import Mathlib.Data.UInt
import Pgrust.PglzHistory

/-!
The PGLZ compressor over the match history. The loop's invariant says that the bytes written so
far, once the open control byte is filled in, are a well-formed stream for the source read so
far, so what the compressor returns decompresses to the source.
-/

namespace PglzCompress

open PglzStream PglzHistory List Option

structure PglzStrategy where
  minInputSize : Int
  maxInputSize : Int
  minCompRate : Int
  firstSuccessBy : Int
  matchSizeGood : Int
  matchSizeDrop : Int

def i32Max : Nat := 2147483647

def pglzMaxOutput (slen : Nat) : Nat := slen + 4

def clamp (v lo hi : Int) : Int := max lo (min v hi)

def PglzStrategy.goodMatch (strategy : PglzStrategy) : Int := clamp strategy.matchSizeGood 17 pglzMaxMatch

def PglzStrategy.goodDrop (strategy : PglzStrategy) : Int := clamp strategy.matchSizeDrop 0 100

def PglzStrategy.needRate (strategy : PglzStrategy) : Int := clamp strategy.minCompRate 0 99

def PglzStrategy.resultMax (strategy : PglzStrategy) (slen : Nat) : Nat :=
  (if i32Max / 100 < slen then (slen / 100 : Int) * (100 - strategy.needRate)
    else ((slen : Int) * (100 - strategy.needRate)) / 100).toNat

def hashsz (slen : Nat) : Nat :=
  if slen < 128 then 512
  else if slen < 256 then 1024
  else if slen < 512 then 2048
  else if slen < 1024 then 4096
  else 8192

/-- How a compression ends without output: `None`, or a panic or write past the buffer. -/
inductive Stop
  | rejected
  | fault
  deriving DecidableEq

def orFault {α : Type} : Option α → Except Stop α
  | some a => .ok a
  | none => .error .fault

/-- What the loop reads and does not change. -/
structure Env where
  signed : Bool
  source : List UInt8
  cap : Nat
  strategy : PglzStrategy

def Env.mask (env : Env) : Nat := hashsz env.source.length - 1

def Env.resultMax (env : Env) : Nat := env.strategy.resultMax env.source.length

/-- The loop's variables; `out` is the buffer up to `bp`, `ctrlp` is `none` on the dummy byte. -/
structure CState where
  hs : HistState
  dp : Nat
  out : List UInt8
  ctrlp : Option Nat
  ctrlb : UInt8
  ctrl : UInt8
  foundMatch : Bool

def emit (cap : Nat) (out bytes : List UInt8) : Option (List UInt8) :=
  if out.length + bytes.length ≤ cap then some (out ++ bytes) else none

/-- The output with the pending control byte stored. -/
def CState.flushed (st : CState) : List UInt8 :=
  match st.ctrlp with
  | none => st.out
  | some i => st.out.set i st.ctrlb

/-- `out_ctrl!`: the byte reserved for the next control byte is filled in later. -/
def CState.outCtrl (cap : Nat) (st : CState) : Option CState :=
  if st.ctrl = 0 then do
    let out ← emit cap st.flushed [0]
    some { st with out := out, ctrlp := some st.out.length, ctrlb := 0, ctrl := 1 }
  else some st

def Env.add (env : Env) : HistState → Nat → Option HistState := HistState.add env.signed env.source env.mask

/-- The positions of a match are added one by one. -/
def Env.addRun (env : Env) : Nat → HistState → Nat → Option HistState
  | 0, hs, _ => some hs
  | k + 1, hs, dp => do
    let hs ← env.add hs dp
    env.addRun k hs (dp + 1)

def CState.emitMatch (env : Env) (st : CState) (len off : Nat) : Option CState := do
  let st ← st.outCtrl env.cap
  let out ← emit env.cap st.out (Item.copy len off).bytes
  let hs ← env.addRun len st.hs st.dp
  some { st with
    hs := hs, dp := st.dp + len, out := out, ctrlb := st.ctrlb ||| st.ctrl, ctrl := st.ctrl <<< 1,
    foundMatch := true }

def CState.emitLiteral (env : Env) (st : CState) : Option CState := do
  let st ← st.outCtrl env.cap
  let b ← env.source[st.dp]?
  let out ← emit env.cap st.out (Item.literal b).bytes
  let hs ← env.add st.hs st.dp
  some { st with hs := hs, dp := st.dp + 1, out := out, ctrl := st.ctrl <<< 1 }

def Env.findMatch (env : Env) (st : CState) : Option (Option (Nat × Nat)) :=
  st.hs.hist.findMatch env.signed env.source env.mask env.strategy.goodMatch env.strategy.goodDrop st.dp

/-- One round of the main loop. -/
def Env.step (env : Env) (st : CState) : Except Stop CState :=
  if env.resultMax ≤ st.out.length then .error .rejected
  else if st.foundMatch = false ∧ env.strategy.firstSuccessBy ≤ st.out.length then .error .rejected
  else orFault do
    match ← env.findMatch st with
    | some (len, off) => st.emitMatch env len off
    | none => st.emitLiteral env

def Env.loop (env : Env) : Nat → CState → Except Stop CState
  | 0, st => if st.dp < env.source.length then .error .fault else .ok st
  | fuel + 1, st =>
    if st.dp < env.source.length then do
      let st ← env.step st
      env.loop fuel st
    else .ok st

/-- The loop's start: the part of the start table in use is cleared, the entries are left over
from the compression before. -/
def Env.start (env : Env) (stale : Hist) : CState where
  hs :=
    { hist := { stale with start := fun b => if b < hashsz env.source.length then 0 else stale.start b }
      histNext := 1
      recycle := false }
  dp := 0
  out := []
  ctrlp := none
  ctrlb := 0
  ctrl := 0
  foundMatch := false

/-- The checks before the loop: the assertion on the buffer, then the strategy's. -/
def Env.entry (env : Env) : Except Stop Unit :=
  if env.cap < pglzMaxOutput env.source.length then .error .fault
  else if i32Max < env.source.length then .error .rejected
  else if env.strategy.matchSizeGood ≤ 0 ∨ (env.source.length : Int) < env.strategy.minInputSize ∨
      env.strategy.maxInputSize < env.source.length then .error .rejected
  else .ok ()

def Env.finish (env : Env) (st : CState) : Except Stop (List UInt8) :=
  if env.resultMax ≤ st.flushed.length then .error .rejected else .ok st.flushed

/-- `pglz_compress_into`: the bytes it leaves in the buffer. -/
def pglzCompressInto (env : Env) (stale : Hist) : Except Stop (List UInt8) := do
  env.entry
  let st ← env.loop env.source.length (env.start stale)
  env.finish st

section Emission

variable {st : CState} {finished : List (List Item)} {cur items : List Item}

/-- A control byte is pending: the groups before it are complete, `cur` is written behind it. -/
structure Open (st : CState) (finished : List (List Item)) (cur : List Item) : Prop where
  full : ∀ g ∈ finished, g.length = 8
  room : cur.length ≤ 8
  mark : st.ctrlp = some (finished.flatMap groupBytes).length
  out : ∃ b, st.out = finished.flatMap groupBytes ++ b :: cur.flatMap Item.bytes
  bits : st.ctrlb.toNat = flagBits cur
  ctrl : st.ctrl.toNat = 2 ^ cur.length % 256

/-- The output stands for `items`; before the first item no control byte is reserved. -/
def Emits (st : CState) (items : List Item) : Prop :=
  (items = [] ∧ st.out = [] ∧ st.ctrlp = none ∧ st.ctrl = 0) ∨
    ∃ finished cur, Open st finished cur ∧ cur ≠ [] ∧ items = finished.flatten ++ cur

theorem Open.flushed (h : Open st finished cur) : st.flushed = (finished ++ [cur]).flatMap groupBytes := by
  obtain ⟨b, hout⟩ := h.out
  have hbyte : UInt8.ofNat (flagBits cur) = st.ctrlb := by
    rw [← h.bits, UInt8.ofNat_toNat]
  rw [CState.flushed, h.mark, hout]
  simp [groupBytes, hbyte]

theorem Open.flushed_length (h : Open st finished cur) : st.flushed.length = st.out.length := by
  rw [CState.flushed, h.mark]
  exact length_set

theorem grouped_concat (hfull : ∀ g ∈ finished, g.length = 8) (hroom : cur.length ≤ 8) (hne : cur ≠ []) :
    Grouped (finished ++ [cur]) := by
  induction finished with
  | nil => exact .last hne hroom
  | cons g gs ih =>
    apply Grouped.cons
    · exact hfull g mem_cons_self
    · exact ih (fun g' hg' => hfull g' (mem_cons_of_mem g hg'))

theorem emit_eq (h : out.length + bytes.length ≤ cap) : emit cap out bytes = some (out ++ bytes) := if_pos h

theorem Open.ctrl_eq_zero (h : Open st finished cur) : st.ctrl = 0 ↔ cur.length = 8 := by
  have hroom := h.room
  have hctrl := h.ctrl
  rw [← UInt8.toNat_inj, hctrl]
  constructor
  · intro hzero
    by_contra hne
    have hpow : 2 ^ cur.length < 256 := Nat.pow_lt_pow_right (n := 8) (by decide) (by omega)
    rw [Nat.mod_eq_of_lt hpow] at hzero
    exact absurd hzero (Nat.pos_iff_ne_zero.mp (Nat.two_pow_pos _))
  · intro hfull
    rw [hfull]
    rfl

/-- The state after a byte was reserved for a new group's control byte. -/
def CState.reserved (st : CState) : CState :=
  { st with out := st.flushed ++ [0], ctrlp := some st.out.length, ctrlb := 0, ctrl := 1 }

theorem outCtrl_eq (hctrl : st.ctrl = 0) (hlen : st.flushed.length = st.out.length)
    (hcap : st.out.length + 1 ≤ cap) : st.outCtrl cap = some st.reserved := by
  have hemit : emit cap st.flushed [0] = some (st.flushed ++ [0]) := emit_eq (by rw [hlen]; exact hcap)
  rw [CState.outCtrl, if_pos hctrl, hemit]
  rfl

theorem reserved_open (hlen : st.flushed.length = st.out.length)
    (hflushed : st.flushed = finished.flatMap groupBytes) (hfull : ∀ g ∈ finished, g.length = 8) :
    Open st.reserved finished [] := by
  refine ⟨hfull, Nat.zero_le 8, ?_, ⟨0, ?_⟩, rfl, rfl⟩
  · rw [← hflushed, hlen]
    rfl
  · rw [← hflushed]
    rfl

/-- `out_ctrl!` leaves room in a group for the next item. -/
def Ready (cap : Nat) (st : CState) (items : List Item) : Prop :=
  ∃ st' finished cur, st.outCtrl cap = some st' ∧ Open st' finished cur ∧ cur.length < 8 ∧
    items = finished.flatten ++ cur ∧ st'.out.length ≤ st.out.length + 1 ∧
    st'.hs = st.hs ∧ st'.dp = st.dp

theorem reserved_ready {cap : Nat} (hctrl : st.ctrl = 0) (hlen : st.flushed.length = st.out.length)
    (hflushed : st.flushed = finished.flatMap groupBytes) (hfull : ∀ g ∈ finished, g.length = 8)
    (hcap : st.out.length + 1 ≤ cap) : Ready cap st finished.flatten := by
  have hout : st.reserved.out.length ≤ st.out.length + 1 := by
    rw [CState.reserved, length_append, hlen, length_singleton]
  exact ⟨st.reserved, finished, [], outCtrl_eq hctrl hlen hcap, reserved_open hlen hflushed hfull,
    by decide, (append_nil _).symm, hout, rfl, rfl⟩

theorem Emits.ready (h : Emits st items) (hcap : st.out.length + 1 ≤ cap) : Ready cap st items := by
  rcases h with ⟨rfl, hout, hmark, hctrl⟩ | ⟨finished, cur, hopen, -, rfl⟩
  · have hflushed : st.flushed = [] := by rw [CState.flushed, hmark, hout]
    exact @reserved_ready st [] cap hctrl (by rw [hflushed, hout]) hflushed (by simp) hcap
  · by_cases hctrl : st.ctrl = 0
    · have hlen := hopen.ctrl_eq_zero.mp hctrl
      have hfull : ∀ g ∈ finished ++ [cur], g.length = 8 := by
        intro g hg
        rcases mem_append.mp hg with hg | hg
        · exact hopen.full g hg
        · rw [mem_singleton.mp hg]
          exact hlen
      have hready := reserved_ready hctrl hopen.flushed_length hopen.flushed hfull hcap
      rw [flatten_append, flatten_singleton] at hready
      exact hready
    · have hlen : cur.length < 8 := Nat.lt_of_le_of_ne hopen.room (fun heq => hctrl (hopen.ctrl_eq_zero.mpr heq))
      exact ⟨st, finished, cur, if_neg hctrl, hopen, hlen, rfl, Nat.le_succ _, rfl, rfl⟩

theorem flagBits_concat (cur) (it : Item) :
    flagBits (cur ++ [it]) = flagBits cur + if it.isCopy then 2 ^ cur.length else 0 := by
  rw [flagBits_append]
  simp only [flagBits]
  split_ifs <;> simp

/-- The state after `it` was written behind the pending control byte. -/
def CState.wrote (st : CState) (it : Item) (hs : HistState) : CState where
  hs := hs
  dp := st.dp + it.size
  out := st.out ++ it.bytes
  ctrlp := st.ctrlp
  ctrlb := if it.isCopy then st.ctrlb ||| st.ctrl else st.ctrlb
  ctrl := st.ctrl <<< 1
  foundMatch := if it.isCopy then true else st.foundMatch

theorem Open.wrote (h : Open st finished cur) (hroom : cur.length < 8) (it : Item) (hs : HistState) :
    Open (st.wrote it hs) finished (cur ++ [it]) := by
  have hpow : 2 ^ cur.length < 256 := Nat.pow_lt_pow_right (by decide) hroom
  have hctrl : st.ctrl.toNat = 2 ^ cur.length := h.ctrl.trans (Nat.mod_eq_of_lt hpow)
  refine ⟨h.full, ?_, h.mark, ?_, ?_, ?_⟩
  · simpa using hroom
  · obtain ⟨b, hout⟩ := h.out
    exact ⟨b, by simp [CState.wrote, hout]⟩
  · rw [flagBits_concat, ← h.bits]
    simp only [CState.wrote]
    split_ifs with hcopy
    · have hlt : st.ctrlb.toNat < 2 ^ cur.length := by
        rw [h.bits]
        exact flagBits_lt cur
      have hor := @mul_or 1 _ _ hlt
      rw [Nat.one_mul] at hor
      rw [UInt8.toNat_or, hctrl, Nat.lor_comm, hor, Nat.add_comm]
    · rfl
  · have hshift : (st.wrote it hs).ctrl.toNat = st.ctrl.toNat <<< 1 % 256 := UInt8.toNat_shiftLeft _ _
    rw [hshift, hctrl, length_append, length_singleton, Nat.shiftLeft_eq, ← Nat.pow_add]

end Emission

section Run

variable {env : Env} {st : CState}

def Env.idx (env : Env) (pos : Nat) : Nat := (histIdx env.signed env.source env.mask pos).getD 0

theorem hashsz_le (slen : Nat) : hashsz slen ≤ pglzMaxHistoryLists := by
  simp only [hashsz, pglzMaxHistoryLists]
  split_ifs <;> omega

theorem hashsz_pos (slen : Nat) : 0 < hashsz slen := by
  simp only [hashsz]
  split_ifs <;> omega

theorem Env.idx_eq (env : Env) (h : pos < env.source.length) :
    histIdx env.signed env.source env.mask pos = some (env.idx pos) ∧ env.idx pos < hashsz env.source.length := by
  obtain ⟨b, hb, hle⟩ := histIdx_le h
  have hidx : env.idx pos = b := by rw [Env.idx, hb, getD_some]
  have hpos := hashsz_pos env.source.length
  rw [Env.mask] at hle
  rw [hidx]
  exact ⟨hb, by omega⟩

/-- The history is the one of the positions below `n`. -/
abbrev Env.Holds (env : Env) (hs : HistState) (n : Nat) : Prop := hs.Holds env.idx (hashsz env.source.length) n

theorem addRun_holds (hlen : env.source.length ≤ i32Max) (h : env.Holds hs n) (hk : n + k ≤ env.source.length) :
    ∃ hs', env.addRun k hs n = some hs' ∧ env.Holds hs' (n + k) := by
  induction k generalizing n hs with
  | zero => exact ⟨hs, rfl, h⟩
  | succ k ih =>
    obtain ⟨hhash, hidx⟩ := env.idx_eq (show n < env.source.length by omega)
    have hn : n < 2 ^ 32 := by
      simp only [i32Max] at hlen
      omega
    obtain ⟨hs', hadd, hholds⟩ := h.add (hashsz_le _) hn hhash hidx
    obtain ⟨hs'', hrun, hholds'⟩ := ih hholds (by omega)
    refine ⟨hs'', ?_, ?_⟩
    · rw [Env.addRun, Env.add, hadd]
      exact hrun
    · rw [Nat.add_comm k 1, ← Nat.add_assoc]
      exact hholds'

/-- The loop invariant: the history and the output both stand at `dp`. -/
structure Inv (env : Env) (st : CState) : Prop where
  hist : env.Holds st.hs st.dp
  emits : ∃ items, Emits st items ∧ CoversAll env.source 0 items ∧ sizes items = st.dp
  le : st.dp ≤ env.source.length

/-- Writing an item that stands for the bytes at `dp`. -/
def CState.put (env : Env) (st : CState) (it : Item) : Option CState := do
  let st ← st.outCtrl env.cap
  let out ← emit env.cap st.out it.bytes
  let hs ← env.addRun it.size st.hs st.dp
  some { st.wrote it hs with out := out }

theorem emitMatch_eq (len off : Nat) : st.emitMatch env len off = st.put env (.copy len off) := rfl

theorem emitLiteral_eq (hb : env.source[st.dp]? = some b) (hctrl : st.outCtrl env.cap = some st')
    (hdp : st'.dp = st.dp) : st.emitLiteral env = st.put env (.literal b) := by
  rw [CState.emitLiteral, CState.put, hctrl]
  simp only [bind_eq_bind, bind_some, hdp, hb, Item.size, Env.addRun, bind_assoc, CState.wrote]
  rfl

theorem Inv.put (h : Inv env st) (hlen : env.source.length ≤ i32Max) (hit : it.Covers env.source st.dp)
    (hcap : st.out.length + 4 ≤ env.cap) :
    ∃ st', st.put env it = some st' ∧ Inv env st' ∧ st.dp < st'.dp := by
  obtain ⟨items, hemits, hcovers, hsizes⟩ := h.emits
  have hready : Ready env.cap st items := hemits.ready (by omega)
  obtain ⟨st₁, finished, cur, hctrl, hopen, hroom, rfl, hout, hhs, hdp⟩ := hready
  obtain ⟨hs, hrun, hholds⟩ := addRun_holds hlen h.hist hit.le_length
  have hemit : emit env.cap st₁.out it.bytes = some (st₁.out ++ it.bytes) := by
    have := bytes_length_le it
    exact emit_eq (by omega)
  have hdp' : (st₁.wrote it hs).dp = st.dp + it.size := by rw [CState.wrote, hdp]
  refine ⟨st₁.wrote it hs, ?_, ⟨?_, ⟨finished.flatten ++ (cur ++ [it]), ?_, ?_, ?_⟩, ?_⟩, ?_⟩
  · rw [CState.put, hctrl]
    simp only [bind_eq_bind, bind_some, hemit, hhs, hdp, hrun]
    rfl
  · rw [hdp']
    exact hholds
  · exact .inr ⟨finished, cur ++ [it], hopen.wrote hroom it hs, by simp, rfl⟩
  · rw [← append_assoc, coversAll_append, Nat.zero_add, hsizes]
    exact ⟨hcovers, hit, trivial⟩
  · rw [← append_assoc, sizes_append, hsizes, hdp']
    rfl
  · rw [hdp']
    exact hit.le_length
  · have := hit.size_pos
    omega

theorem resultMax_le (strategy : PglzStrategy) (slen : Nat) :
    ((strategy.resultMax slen : Nat) : Int) * 100 ≤ slen * (100 - strategy.needRate) := by
  have hrate : 0 ≤ strategy.needRate ∧ strategy.needRate ≤ 99 := by
    simp only [PglzStrategy.needRate, clamp]
    omega
  rw [PglzStrategy.resultMax, Int.toNat_of_nonneg]
  · split_ifs
    · nlinarith [Int.ediv_mul_le (slen : Int) (show (100 : Int) ≠ 0 by decide)]
    · exact Int.ediv_mul_le _ (by decide)
  · split_ifs
    · exact Int.mul_nonneg (by omega) (by omega)
    · exact Int.ediv_nonneg (Int.mul_nonneg (by omega) (by omega)) (by decide)

theorem resultMax_le_length (strategy : PglzStrategy) (slen : Nat) : strategy.resultMax slen ≤ slen := by
  have hrate : 0 ≤ strategy.needRate := by
    simp only [PglzStrategy.needRate, clamp]
    omega
  have hle := resultMax_le strategy slen
  have hslen : (slen : Int) * (100 - strategy.needRate) ≤ slen * 100 :=
    Int.mul_le_mul_of_nonneg_left (by omega) (by omega)
  omega

/-- A round either gives up or keeps the invariant and moves on. -/
theorem Inv.step (h : Inv env st) (hcap : pglzMaxOutput env.source.length ≤ env.cap)
    (hlen : env.source.length ≤ i32Max) (hdp : st.dp < env.source.length) :
    env.step st = .error .rejected ∨ ∃ st', env.step st = .ok st' ∧ Inv env st' ∧ st.dp < st'.dp := by
  rw [Env.step]
  by_cases hfull : env.resultMax ≤ st.out.length
  · exact .inl (if_pos hfull)
  · rw [if_neg hfull]
    by_cases hlate : st.foundMatch = false ∧ env.strategy.firstSuccessBy ≤ st.out.length
    · exact .inl (if_pos hlate)
    · rw [if_neg hlate]
      have hroom : st.out.length + 4 ≤ env.cap := by
        have hmax : env.resultMax ≤ env.source.length := resultMax_le_length _ _
        rw [pglzMaxOutput] at hcap
        omega
      obtain ⟨hhash, hidx⟩ := env.idx_eq hdp
      obtain ⟨r, hfind, hmatch⟩ := findMatch_covers h.hist.hist (hashsz_le _) hdp hhash hidx
      right
      rw [Env.findMatch, hfind]
      cases r with
      | some r =>
        obtain ⟨st', hput, hinv, hlt⟩ := h.put hlen (hmatch r.1 r.2 rfl) hroom
        refine ⟨st', ?_, hinv, hlt⟩
        simp only [bind_eq_bind, bind_some, emitMatch_eq, hput]
        rfl
      | none =>
        have hb : env.source[st.dp]? = some env.source[st.dp] := getElem?_eq_getElem hdp
        obtain ⟨items, hemits, -⟩ := h.emits
        have hready : Ready env.cap st items := hemits.ready (by omega)
        obtain ⟨st₁, -, -, hctrl, -, -, -, -, -, hdp₁⟩ := hready
        have hit : (Item.literal env.source[st.dp]).Covers env.source st.dp := hb
        obtain ⟨st', hput, hinv, hlt⟩ := h.put hlen hit hroom
        refine ⟨st', ?_, hinv, hlt⟩
        simp only [emitLiteral_eq hb hctrl hdp₁, hput]
        rfl

theorem Inv.loop (h : Inv env st) (hcap : pglzMaxOutput env.source.length ≤ env.cap)
    (hlen : env.source.length ≤ i32Max) (hfuel : env.source.length - st.dp ≤ fuel) :
    env.loop fuel st = .error .rejected ∨
      ∃ st', env.loop fuel st = .ok st' ∧ Inv env st' ∧ st'.dp = env.source.length := by
  have hle := h.le
  induction fuel generalizing st with
  | zero => exact .inr ⟨st, if_neg (by omega), h, by omega⟩
  | succ fuel ih =>
    rw [Env.loop]
    split_ifs with hdp
    · rcases h.step hcap hlen hdp with hstep | ⟨st', hstep, hinv, hlt⟩
      · rw [hstep]
        exact .inl rfl
      · rw [hstep]
        exact ih hinv (by omega) hinv.le
    · exact .inr ⟨st, rfl, h, by omega⟩

theorem holds_empty {hist : Hist} {idx : Nat → Nat} {sz : Nat} (h : ∀ b < sz, hist.start b = 0) (lo : Nat) :
    hist.Holds idx sz lo 0 := by
  refine ⟨by omega, ?_, fun p _ hp => absurd hp (Nat.not_lt_zero p)⟩
  intro b hb
  have hnil : bucket idx b lo 0 = [] := by simp [bucket]
  rw [hnil]
  exact h b hb

theorem start_inv (env : Env) (stale : Hist) : Inv env (env.start stale) := by
  have hempty : ∀ b < hashsz env.source.length, (env.start stale).hs.hist.start b = 0 := fun b hb => if_pos hb
  exact ⟨⟨rfl, rfl, holds_empty hempty _⟩, ⟨[], .inl ⟨rfl, rfl, rfl, rfl⟩, trivial, rfl⟩, Nat.zero_le _⟩

theorem entry_ok (h : env.entry = .ok ()) :
    pglzMaxOutput env.source.length ≤ env.cap ∧ env.source.length ≤ i32Max := by
  rw [Env.entry] at h
  split_ifs at h with hcap hlen
  exact ⟨Nat.le_of_not_lt hcap, Nat.le_of_not_lt hlen⟩

/-- A compression is refused, trips over a short buffer, or ends at the end of the source. -/
theorem compress_cases (env : Env) (stale : Hist) :
    (env.cap < pglzMaxOutput env.source.length ∧ pglzCompressInto env stale = .error .fault) ∨
      pglzCompressInto env stale = .error .rejected ∨
      ∃ st, pglzCompressInto env stale = env.finish st ∧ Inv env st ∧ st.dp = env.source.length := by
  have hrun : pglzCompressInto env stale =
      env.entry.bind fun _ => (env.loop env.source.length (env.start stale)).bind env.finish := rfl
  rw [hrun]
  by_cases hcap : env.cap < pglzMaxOutput env.source.length
  · left
    rw [Env.entry, if_pos hcap]
    exact ⟨hcap, rfl⟩
  · right
    cases hentry : env.entry with
    | error =>
      left
      rw [Env.entry] at hentry
      split_ifs at hentry <;> cases hentry <;> rfl
    | ok =>
      obtain ⟨-, hlen⟩ := entry_ok hentry
      rcases (start_inv env stale).loop (Nat.le_of_not_lt hcap) hlen (Nat.sub_le _ _) with
        hloop | ⟨st, hloop, hinv, hdp⟩
      · left
        rw [hloop]
        rfl
      · right
        rw [hloop]
        exact ⟨st, rfl, hinv, hdp⟩

theorem finish_ne_fault (env : Env) (st) : env.finish st ≠ .error .fault := by
  rw [Env.finish]
  split_ifs
  · nofun
  · nofun

/-- What is left in the buffer at the end is shorter than the strategy allows and stands for the source. -/
theorem Inv.finish (h : Inv env st) (hdp : st.dp = env.source.length) (hfinish : env.finish st = .ok comp) :
    comp.length < env.resultMax ∧ ∃ groups, StreamOf env.source comp groups := by
  rw [Env.finish] at hfinish
  split_ifs at hfinish with hfull
  cases hfinish
  refine ⟨Nat.lt_of_not_le hfull, ?_⟩
  obtain ⟨items, hemits, hcovers, hsizes⟩ := h.emits
  rcases hemits with ⟨rfl, hout, -, -⟩ | ⟨finished, cur, hopen, hne, rfl⟩
  · -- nothing was read, and an empty source never passes the length check
    have hmax : env.resultMax ≤ env.source.length := resultMax_le_length _ _
    rw [sizes_nil] at hsizes
    omega
  · have hflat : (finished ++ [cur]).flatten = finished.flatten ++ cur := by simp
    refine ⟨finished ++ [cur], grouped_concat hopen.full hopen.room hne, ?_, ?_, hopen.flushed⟩
    · rw [hflat]
      exact hcovers
    · rw [hflat, hsizes, hdp]

/-- What a compression returns. -/
theorem compress_ok (h : pglzCompressInto env stale = .ok comp) :
    env.source.length ≤ i32Max ∧ comp.length < env.resultMax ∧ ∃ groups, StreamOf env.source comp groups := by
  have hlen : env.source.length ≤ i32Max := by
    rw [pglzCompressInto] at h
    cases hentry : env.entry with
    | error =>
      rw [hentry] at h
      cases h
    | ok => exact (entry_ok hentry).2
  rcases compress_cases env stale with ⟨-, hfault⟩ | hrej | ⟨st, heq, hinv, hdp⟩
  · rw [hfault] at h
    cases h
  · rw [hrej] at h
    cases h
  · rw [heq] at h
    exact ⟨hlen, hinv.finish hdp h⟩

/-- The states at the head of the main loop. -/
inductive Reach (env : Env) (stale : Hist) : CState → Prop
  | start : env.entry = .ok () → Reach env stale (env.start stale)
  | step {st st' : CState} : Reach env stale st → st.dp < env.source.length → env.step st = .ok st' →
      Reach env stale st'

/-- The histories during a compression: at the loop's head, and after each position of a match. -/
inductive During (env : Env) (stale : Hist) : HistState → Prop
  | head {st : CState} : Reach env stale st → During env stale st.hs
  | matching {st : CState} {len off k : Nat} {hs : HistState} : Reach env stale st →
      st.dp < env.source.length → env.findMatch st = some (some (len, off)) → k ≤ len →
      env.addRun k st.hs st.dp = some hs → During env stale hs

theorem Reach.inv (h : Reach env stale st) : env.entry = .ok () ∧ Inv env st := by
  induction h with
  | start hentry => exact ⟨hentry, start_inv env stale⟩
  | step _ hdp hstep ih =>
    obtain ⟨hentry, hinv⟩ := ih
    obtain ⟨hcap, hlen⟩ := entry_ok hentry
    rcases hinv.step hcap hlen hdp with hrej | ⟨st', hok, hinv', -⟩
    · rw [hrej] at hstep
      cases hstep
    · rw [hok] at hstep
      cases hstep
      exact ⟨hentry, hinv'⟩

theorem During.holds (h : During env stale hs) : ∃ n, env.Holds hs n := by
  cases h with
  | head hreach => exact ⟨_, hreach.inv.2.hist⟩
  | @matching st len off k _ hreach hdp hfind hk hrun =>
    obtain ⟨hentry, hinv⟩ := hreach.inv
    obtain ⟨hhash, hidx⟩ := env.idx_eq hdp
    obtain ⟨r, hr, hmatch⟩ := findMatch_covers hinv.hist.hist (hashsz_le _) hdp hhash hidx
    rw [Env.findMatch] at hfind
    rw [hfind] at hr
    cases hr
    have hle := (hmatch len off rfl).le_length
    simp only [Item.size] at hle
    obtain ⟨hs', hrun', hholds⟩ := addRun_holds (entry_ok hentry).2 hinv.hist (show st.dp + k ≤ _ by omega)
    rw [hrun] at hrun'
    cases hrun'
    exact ⟨_, hholds⟩

/-- Compression with a large enough buffer ends, without a fault; what it returns keeps to the
strategy's rate and decompresses to the source; and at every point of it the chains of the start
table run from the newest to the oldest position without a cycle. -/
theorem pglz_roundTrip (env : Env) (stale : Hist) :
    (pglzMaxOutput env.source.length ≤ env.cap → pglzCompressInto env stale ≠ .error .fault) ∧
    (∀ comp, pglzCompressInto env stale = .ok comp → comp.length < env.resultMax ∧
      (comp.length : Int) * 100 < env.source.length * (100 - env.strategy.needRate) ∧
      comp.length ≤ pglzMaxOutput env.source.length ∧
      pglzDecompress comp env.source.length true = some env.source) ∧
    ∀ hs, During env stale hs → ∀ b < hashsz env.source.length, hs.hist.Ordered b := by
  refine ⟨?_, ?_, ?_⟩
  · intro hcap
    rcases compress_cases env stale with ⟨hshort, -⟩ | hrej | ⟨st, heq, -⟩
    · omega
    · rw [hrej]
      nofun
    · rw [heq]
      exact finish_ne_fault env st
  · intro comp hcomp
    obtain ⟨-, hlt, groups, hstream⟩ := compress_ok hcomp
    have hrate := resultMax_le env.strategy env.source.length
    have hmax := resultMax_le_length env.strategy env.source.length
    rw [Env.resultMax] at hlt ⊢
    refine ⟨hlt, by omega, ?_, hstream.decompress⟩
    rw [pglzMaxOutput]
    omega
  · intro hs hduring b hb
    obtain ⟨n, hholds⟩ := hduring.holds
    exact hholds.hist.ordered hb

/-- How much of a stream is enough for the first `rawsize` bytes; the result is cut to 32 bits. -/
def pglzMaximumCompressedSize (rawsize totalCompressedSize : Int) : Int :=
  (min ((rawsize * 9 + 7).tdiv 8 + 2) totalCompressedSize).bmod (2 ^ 32)

theorem maximumCompressedSize_eq (k : Nat) (hn : n ≤ i32Max) :
    (pglzMaximumCompressedSize k n).toNat = min (k + (k + 7) / 8 + 2) n := by
  have hmin : min (((k : Int) * 9 + 7).tdiv 8 + 2) n = (min (k + (k + 7) / 8 + 2) n : Nat) := by
    rw [show ((k : Int) * 9 + 7).tdiv 8 = ((k * 9 + 7) / 8 : Nat) from rfl]
    omega
  have hle : min (k + (k + 7) / 8 + 2) n ≤ i32Max := (Nat.min_le_right _ _).trans hn
  rw [pglzMaximumCompressedSize]
  rw [i32Max] at hle
  rw [Int.bmod_def]
  omega

/-- The first bytes of the source come back from as much of the stream as
`pglz_maximum_compressed_size` says. -/
theorem pglz_slice (env : Env) (stale : Hist) (hcomp : pglzCompressInto env stale = .ok comp) (k : Nat)
    (hk : k ≤ env.source.length) :
    pglzDecompress (comp.take (pglzMaximumCompressedSize k comp.length).toNat) k false =
      some (env.source.take k) := by
  obtain ⟨hlen, hlt, groups, hstream⟩ := compress_ok hcomp
  have hmax : env.resultMax ≤ env.source.length := resultMax_le_length _ _
  rw [maximumCompressedSize_eq k (by omega)]
  exact hstream.slice hk (by omega)

/-- `PGLZ_STRATEGY_ALWAYS`. -/
def pglzStrategyAlways : PglzStrategy where
  minInputSize := 0
  maxInputSize := i32Max
  minCompRate := 0
  firstSuccessBy := i32Max
  matchSizeGood := 128
  matchSizeDrop := 6

def zeros : Env where
  signed := true
  source := [0, 0, 0, 0, 0, 0, 0, 0]
  cap := 12
  strategy := pglzStrategyAlways

/-- Eight equal bytes become a literal and an overlapping match. -/
theorem pglz_roundTrip_zeros : pglzCompressInto zeros ⟨fun _ => 0, fun _ => ⟨0, 0, 0, 0⟩⟩ = .ok [2, 0, 4, 1] ∧
      pglzDecompress [2, 0, 4, 1] 8 true = some [0, 0, 0, 0, 0, 0, 0, 0] := by
  have hcomp : pglzCompressInto zeros ⟨fun _ => 0, fun _ => ⟨0, 0, 0, 0⟩⟩ = .ok [2, 0, 4, 1] := by rfl
  exact ⟨hcomp, ((pglz_roundTrip zeros _).2.1 _ hcomp).2.2.2⟩

theorem pglz_slice_zeros : pglzCompressInto zeros ⟨fun _ => 0, fun _ => ⟨0, 0, 0, 0⟩⟩ = .ok [2, 0, 4, 1] ∧
      pglzDecompress [2, 0, 4, 1] 3 false = some [0, 0, 0] := by
  have hcomp : pglzCompressInto zeros ⟨fun _ => 0, fun _ => ⟨0, 0, 0, 0⟩⟩ = .ok [2, 0, 4, 1] := by rfl
  exact ⟨hcomp, pglz_slice zeros _ hcomp 3 (by decide)⟩

end Run

end PglzCompress
