import Mathlib.Algebra.BigOperators.Fin
import Mathlib.Algebra.Order.BigOperators.Group.Multiset
import Mathlib.Algebra.Order.Group.Nat
import Mathlib.Data.Finmap

/-!
The private reference counts of a backend: eight slots, and a map for what they cannot hold. A pin that may not
look for the entry of its buffer makes another one, so that a buffer can have several.
-/
/-- A buffer with its count. -/
abbrev PrivRef.Entry (β : Type) := (_ : β) × Nat

/-- `InvalidBuffer` marks an empty slot. -/
structure PrivRef (β : Type) where
  entries : Fin 8 → Option (PrivRef.Entry β)
  reserved : Option (Fin 8)
  clock : Nat
  overflowed : Nat
  overflow : Finmap fun _ : β => Nat

namespace PrivRef

open Multiset Finmap Option
open Function (update update_self update_apply)

variable {β : Type}

def empty : PrivRef β := ⟨fun _ => none, none, 0, 0, ∅⟩

def victim (s : PrivRef β) : Fin 8 := Fin.ofNat 8 s.clock

def firstEmpty (s : PrivRef β) : Option (Fin 8) := (List.finRange 8).find? fun i => (s.entries i).isNone

def put (s : PrivRef β) (i : Fin 8) (x : Option (Entry β)) : PrivRef β := { s with entries := update s.entries i x }

/-- The reserved slot gets the entry; without one the call panics. -/
def place (s : PrivRef β) (e : Entry β) : Option (PrivRef β) :=
  s.reserved.map fun slot => { s with reserved := none }.put slot (some e)

section

variable [DecidableEq β]

/-- The first slot of the buffer, with its count. -/
def find (s : PrivRef β) (b : β) : Option (Fin 8 × Nat) :=
  (List.finRange 8).findSome? fun i => (s.entries i).bind fun e => if e.1 = b then some (i, e.2) else none

def reserveSlot (s : PrivRef β) : PrivRef β :=
  if s.reserved.isSome then s
  else match s.firstEmpty with
    | some i => { s with reserved := some i }
    | none => { s.put s.victim none with
        clock := (s.clock + 1) % 2 ^ 32
        overflow := (s.entries s.victim).elim s.overflow fun e => s.overflow.insert e.1 e.2
        overflowed := s.overflowed + 1
        reserved := some s.victim }

/-- The map without the buffer. -/
def taken (s : PrivRef β) (b : β) : PrivRef β :=
  { s with overflow := s.overflow.erase b, overflowed := s.overflowed - 1 }

/-- The count before, and the state with one more; `absent` is for a buffer that has no entry. -/
def increment (s : PrivRef β) (b : β) (absent : Option (Nat × PrivRef β)) : Option (Nat × PrivRef β) :=
  match s.find b with
  | some (i, n) => some (n, s.put i (some ⟨b, n + 1⟩))
  | none =>
    match if 0 < s.overflowed then s.overflow.lookup b else none with
    | some n => ((s.taken b).reserveSlot.place ⟨b, n + 1⟩).map (n, ·)
    | none => absent

def trackPin (s : PrivRef β) (b : β) : Option (Nat × PrivRef β) := s.increment b ((s.place ⟨b, 1⟩).map (0, ·))

def trackIncr (s : PrivRef β) (b : β) : Option (Nat × PrivRef β) := s.increment b none

def newPinEntry (s : PrivRef β) (b : β) : Option (PrivRef β) := s.place ⟨b, 1⟩

def trackUnpin (s : PrivRef β) (b : β) : Option (Bool × PrivRef β) :=
  match s.find b with
  | some (i, n) =>
    if n - 1 = 0 then some (true, { s.put i none with reserved := some (s.reserved.getD i) })
    else some (false, s.put i (some ⟨b, n - 1⟩))
  | none => (s.overflow.lookup b).map fun n =>
    if n - 1 = 0 then (true, s.taken b) else (false, { s with overflow := s.overflow.insert b (n - 1) })

def getPrivateRefCount (s : PrivRef β) (b : β) : Nat :=
  match s.find b with
  | some (_, n) => n
  | none => if s.overflowed = 0 then 0 else (s.overflow.lookup b).getD 0

/-- The calls so far for each buffer, with the shared references they have taken and given up. -/
structure Tally (β : Type) where
  pins : β → Nat
  unpins : β → Nat
  taken : β → Nat
  given : β → Nat

def Tally.add (t : Tally β) (b : β) (pins unpins taken given : Nat) : Tally β :=
  ⟨t.pins + Pi.single b pins, t.unpins + Pi.single b unpins, t.taken + Pi.single b taken, t.given + Pi.single b given⟩

/-- The runs in which every state that room is made in satisfies `P`. -/
inductive Run (P : PrivRef β → Prop) : Tally β → PrivRef β → Prop
  | init : Run P ⟨0, 0, 0, 0⟩ empty
  | reserve (h : Run P t s) (hroom : P s) : Run P t s.reserveSlot
  | pin (h : Run P t s) (hroom : s.find b = none → P (s.taken b)) (hcall : s.trackPin b = some (old, s')) :
      Run P (t.add b 1 0 (if old = 0 then 1 else 0) 0) s'
  | fresh (h : Run P t s) (hcall : s.newPinEntry b = some s') : Run P (t.add b 1 0 1 0) s'
  | incr (h : Run P t s) (hroom : s.find b = none → P (s.taken b)) (hcall : s.trackIncr b = some (old, s')) :
      Run P (t.add b 1 0 0 0) s'
  | unpin (h : Run P t s) (hcall : s.trackUnpin b = some (dropped, s')) :
      Run P (t.add b 0 1 0 (if dropped then 1 else 0)) s'

/-- The entry that has to give way is not of a buffer that the map has already. -/
def Clean (s : PrivRef β) : Prop :=
  s.reserved = none → s.firstEmpty = none → ∀ e, s.entries s.victim = some e → s.overflow.lookup e.1 = none

end

def slot (x : Option (Entry β)) : Multiset (Entry β) := x.elim 0 ({·})

/-- The entries of the slots and of the map. -/
def bag (s : PrivRef β) : Multiset (Entry β) := ∑ i, slot (s.entries i) + s.overflow.entries

structure Inv (s : PrivRef β) : Prop where
  reserved : ∀ i, s.reserved = some i → s.entries i = none
  overflowed : s.overflowed = s.overflow.entries.card

def Positive (m : Multiset (Entry β)) : Prop := ∀ e ∈ m, e.2 ≠ 0

/-- An entry of `b`, where `n` is not zero. -/
def single (b : β) (n : Nat) : Multiset (Entry β) := if n = 0 then 0 else {⟨b, n⟩}

/-- The entry of `b` with the count `m` has become one with `m'`. -/
def Moves (s s' : PrivRef β) (b : β) (m m' : Nat) : Prop := bag s' + single b m = bag s + single b m'

variable {s s' : PrivRef β} {e : Entry β} {b : β}

theorem bag_put (i : Fin 8) (x : Option (Entry β)) : bag (s.put i x) + slot (s.entries i) = bag s + slot x := by
  have hnew : ∑ j, slot (update s.entries i x j) = _ :=
    congrArg (∑ j, · j) (Function.comp_update slot s.entries i x)
  have hold := Finset.add_sum_erase Finset.univ (fun j => slot (s.entries j)) (Finset.mem_univ i)
  rw [Finset.sum_update_of_mem (Finset.mem_univ i), Finset.sdiff_singleton_eq_erase] at hnew
  simp only [bag, put, hnew, ← hold, Function.comp_apply]
  ac_rfl

theorem Inv.put (h : Inv s) {x : Option (Entry β)} (hi : s.reserved = some i → x = none) : Inv (s.put i x) := by
  refine { h with reserved := fun j hj => ?_ }
  simp only [PrivRef.put, update_apply]
  split_ifs with hji
  · exact hi (hji ▸ hj)
  · exact h.reserved j hj

theorem Inv.place (h : Inv s) (hcall : s.place e = some s') : Inv s' ∧ bag s' = bag s + {e} := by
  obtain ⟨i, hi, rfl⟩ := map_eq_some_iff.mp hcall
  have hinv : Inv { s with reserved := none } := { h with reserved := nofun }
  have hbag := bag_put (s := { s with reserved := none }) i (some e)
  rw [show s.entries i = none from h.reserved i hi] at hbag
  exact ⟨hinv.put nofun, (add_zero _).symm.trans hbag⟩

theorem Positive.ne_zero (h : Positive m) (hbag : m' + {e} = m + 0) : e.2 ≠ 0 := by
  rw [add_zero] at hbag
  exact h e (hbag ▸ mem_add.mpr (.inr (mem_singleton_self e)))

theorem single_of_ne (h : n ≠ 0) : single b n = {⟨b, n⟩} := if_neg h

theorem Inv.fresh (h : Inv s) (hcall : s.place ⟨b, 1⟩ = some s') : Inv s' ∧ Moves s s' b 0 1 :=
  (h.place hcall).imp_right (add_zero _).trans

theorem Moves.positive (h : Moves s s' b m m') (hpos : Positive (bag s)) : Positive (bag s') := by
  intro e he
  have hmem : e ∈ bag s + single b m' := h ▸ mem_add.mpr (.inl he)
  rcases mem_add.mp hmem with hold | hnew
  · exact hpos e hold
  · rw [single] at hnew
    split_ifs at hnew with hm
    · cases hnew
    · rwa [mem_singleton.mp hnew]

variable [DecidableEq β]

theorem find_some (h : s.find b = some (i, n)) : s.entries i = some ⟨b, n⟩ := by
  obtain ⟨j, -, hj⟩ := List.exists_of_findSome?_eq_some h
  obtain ⟨e, he, hif⟩ := bind_eq_some_iff.mp hj
  split_ifs at hif with hb
  cases hif
  rw [he, ← hb]

theorem bag_put_found (h : s.find b = some (i, n)) (x) : bag (s.put i x) + {⟨b, n⟩} = bag s + slot x := by
  have hbag := bag_put (s := s) i x
  rwa [find_some h] at hbag

section Map

variable {m : Finmap fun _ : β => Nat} (h : m.lookup b = some n)
include h

theorem insert_erase : (m.erase b).insert b n = m := by
  refine ext_lookup fun x => ?_
  by_cases hx : x = b
  · rw [hx, lookup_insert, h]
  · rw [lookup_insert_of_ne _ hx, lookup_erase_ne hx]

theorem entries_erase : (m.erase b).entries + {⟨b, n⟩} = m.entries := by
  conv_rhs => rw [← insert_erase h, entries_insert_of_notMem notMem_erase_self]
  exact add_comm _ _

theorem entries_insert (k : Nat) : (m.insert b k).entries = (m.erase b).entries + {⟨b, k⟩} := by
  conv_lhs => rw [← insert_erase h, insert_insert, entries_insert_of_notMem notMem_erase_self]
  exact add_comm {_} _

end Map

/-- Room is made without a change to the entries as a whole. -/
theorem Inv.reserveSlot (h : Inv s) (hclean : s.Clean) : Inv s.reserveSlot ∧ bag s.reserveSlot = bag s := by
  rw [PrivRef.reserveSlot]
  split_ifs with hres
  · exact ⟨h, rfl⟩
  · have hnone : s.reserved = none := by simpa using hres
    cases hfirst : s.firstEmpty with
    | some i =>
      have hempty : s.entries i = none := by simpa using List.find?_some hfirst
      refine ⟨{ h with reserved := ?_ }, rfl⟩
      rintro j ⟨⟩
      exact hempty
    | none =>
      cases he : s.entries s.victim with
      | none =>
        have hall := List.find?_eq_none.mp hfirst s.victim (List.mem_finRange _)
        simp [he] at hall
      | some e =>
        have hnew := entries_insert_of_notMem (b := e.2) (lookup_eq_none.mp (hclean hnone hfirst e he))
        have hbag := bag_put (s := s) s.victim none
        rw [he] at hbag
        refine ⟨⟨?_, ?_⟩, ?_⟩
        · rintro j ⟨⟩
          exact update_self ..
        · show s.overflowed + 1 = (s.overflow.insert e.1 e.2).entries.card
          rw [hnew, h.overflowed, card_cons]
        · show ∑ i, slot ((s.put s.victim none).entries i) + (s.overflow.insert e.1 e.2).entries = bag s
          rw [hnew, ← singleton_add, add_left_comm, add_comm]
          exact hbag.trans (add_zero _)

theorem Inv.taken (h : Inv s) (hmap : s.overflow.lookup b = some n) :
    Inv (s.taken b) ∧ bag (s.taken b) + {⟨b, n⟩} = bag s := by
  have herase := entries_erase hmap
  refine ⟨{ h with overflowed := ?_ }, ?_⟩
  · show s.overflowed - 1 = _
    rw [h.overflowed, ← herase, card_add]
    rfl
  · rw [bag, bag, ← herase, add_assoc]
    rfl

/-- A slot with an entry is not the reserved one. -/
theorem Inv.put_found (h : Inv s) (hfind : s.find b = some (i, n)) (x) : Inv (s.put i x) :=
  h.put fun hres => (some_ne_none _ ((find_some hfind).symm.trans (h.reserved i hres))).elim

section Calls

variable (h : Inv s) (hpos : Positive (bag s))
include h hpos

theorem Inv.increment (hroom : s.find b = none → (s.taken b).Clean)
    (hcall : s.increment b absent = some (old, s')) :
    absent = some (old, s') ∨ old ≠ 0 ∧ Inv s' ∧ Moves s s' b old (old + 1) := by
  rw [PrivRef.increment] at hcall
  split at hcall
  case h_1 i n hfind =>
    cases hcall
    have hne := hpos.ne_zero (bag_put_found hfind none)
    refine .inr ⟨hne, h.put_found hfind _, ?_⟩
    rw [Moves, single_of_ne hne]
    exact bag_put_found hfind _
  case h_2 hfind =>
    split at hcall
    case h_1 n hmap =>
      split_ifs at hmap
      obtain ⟨s₂, hplace, heq⟩ := map_eq_some_iff.mp hcall
      cases heq
      obtain ⟨htaken, hout⟩ := h.taken hmap
      obtain ⟨hinv, hsame⟩ := htaken.reserveSlot (hroom hfind)
      obtain ⟨hinv, hin⟩ := hinv.place hplace
      have hne := hpos.ne_zero (hout.trans (add_zero _).symm)
      refine .inr ⟨hne, hinv, ?_⟩
      rw [Moves, single_of_ne hne, hin, hsame, ← hout, add_right_comm]
      rfl
    case h_2 => exact .inl hcall

theorem Inv.trackUnpin (hcall : s.trackUnpin b = some (dropped, s')) :
    Inv s' ∧ ∃ n, Moves s s' b (n + 1) n ∧ dropped = decide (n = 0) := by
  rw [PrivRef.trackUnpin] at hcall
  split at hcall
  case h_1 i n hfind =>
    obtain ⟨n, rfl⟩ := Nat.exists_eq_succ_of_ne_zero (hpos.ne_zero (bag_put_found hfind none))
    rw [Nat.succ_sub_one] at hcall
    split_ifs at hcall with hn <;> cases hcall
    · subst hn
      have hput : Inv (s.put i none) := h.put fun _ => rfl
      refine ⟨{ hput with reserved := fun j hj => ?_ }, 0, bag_put_found hfind none, rfl⟩
      cases hres : s.reserved <;> rw [hres] at hj <;> cases hj
      · exact update_self ..
      · exact hput.reserved _ hres
    · refine ⟨h.put_found hfind _, n, ?_, (decide_eq_false hn).symm⟩
      rw [Moves, single_of_ne hn]
      exact bag_put_found hfind _
  case h_2 =>
    obtain ⟨n, hmap, heq⟩ := map_eq_some_iff.mp hcall
    obtain ⟨htaken, hout⟩ := h.taken hmap
    obtain ⟨n, rfl⟩ := Nat.exists_eq_succ_of_ne_zero (hpos.ne_zero (hout.trans (add_zero _).symm))
    rw [Nat.succ_sub_one] at heq
    split_ifs at heq with hn <;> cases heq
    · subst hn
      exact ⟨htaken, 0, hout.trans (add_zero _).symm, rfl⟩
    · have hinsert := entries_insert hmap n
      refine ⟨{ h with overflowed := ?_ }, n, ?_, (decide_eq_false hn).symm⟩
      · show s.overflowed = (s.overflow.insert b n).entries.card
        rw [hinsert, h.overflowed, ← entries_erase hmap, card_add, card_add]
        rfl
      · rw [Moves, single_of_ne hn, ← hout, add_right_comm]
        show _ + (s.overflow.insert b n).entries + _ = _
        rw [hinsert, ← add_assoc]
        rfl

end Calls

/-- The sum of a weight over the entries of a buffer. -/
def weigh (f : Nat → Nat) (b : β) (m : Multiset (Entry β)) : Nat := (m.map fun e => if e.1 = b then f e.2 else 0).sum

/-- The sum of the counts of a buffer. -/
def sum : β → Multiset (Entry β) → Nat := weigh id

/-- The number of the entries of a buffer. -/
def count : β → Multiset (Entry β) → Nat := weigh fun _ => 1

theorem weigh_add (m m' : Multiset (Entry β)) : weigh f b (m + m') = weigh f b m + weigh f b m' := by
  simp [weigh]

theorem Moves.weigh (h : Moves s s' b m m') (f : Nat → Nat) (c : β) :
    weigh f c (bag s') + (if c = b then if m = 0 then 0 else f m else 0) =
      weigh f c (bag s) + (if c = b then if m' = 0 then 0 else f m' else 0) := by
  have hsingle : ∀ n, PrivRef.weigh f c (single b n) = if c = b then if n = 0 then 0 else f n else 0 := by
    intro n
    rw [PrivRef.weigh, single]
    split_ifs <;> simp_all [eq_comm]
  rw [← hsingle, ← hsingle, ← weigh_add, ← weigh_add, h]

theorem weigh_eq_zero {m : Multiset (Entry β)} : weigh f b m = 0 ↔ ∀ e ∈ m, e.1 = b → f e.2 = 0 := by
  rw [weigh, sum_eq_zero_iff, forall_mem_map_iff]
  simp

/-- What the calls have added up to. -/
structure Ledger (t : Tally β) (m : Multiset (Entry β)) : Prop where
  sum : ∀ b, sum b m + t.unpins b = t.pins b
  count : ∀ b, count b m + t.given b = t.taken b

theorem Ledger.step {t : Tally β} (h : Ledger t (bag s)) (hm : Moves s s' b m m') (hsum : m' + u = m + p)
    (hcount : (if m' = 0 then 0 else 1) + g = (if m = 0 then 0 else 1) + k) : Ledger (t.add b p u k g) (bag s') := by
  constructor <;> intro c
  · have hnew := hm.weigh id c
    have hold := h.sum c
    simp only [PrivRef.sum, Tally.add, Pi.add_apply, Pi.single_apply, id_eq] at *
    split_ifs at * <;> omega
  · have hnew := hm.weigh (fun _ => 1) c
    have hold := h.count c
    simp only [PrivRef.count, Tally.add, Pi.add_apply, Pi.single_apply] at *
    split_ifs at * <;> omega

theorem Run.inv (h : Run Clean t s) : Inv s ∧ Positive (bag s) ∧ Ledger t (bag s) := by
  induction h with
  | init => exact ⟨⟨nofun, rfl⟩, nofun, fun _ => rfl, fun _ => rfl⟩
  | reserve _ hroom ih =>
    obtain ⟨hinv, hbag⟩ := ih.1.reserveSlot hroom
    rw [hbag]
    exact ⟨hinv, ih.2⟩
  | pin _ hroom hcall ih =>
    obtain ⟨hinv, hpos, hledger⟩ := ih
    rcases hinv.increment hpos hroom hcall with habsent | ⟨hne, hinv, hmoves⟩
    · obtain ⟨_, hplace, heq⟩ := map_eq_some_iff.mp habsent
      cases heq
      obtain ⟨hinv, hmoves⟩ := hinv.fresh hplace
      exact ⟨hinv, hmoves.positive hpos, hledger.step hmoves rfl rfl⟩
    · rw [if_neg hne]
      exact ⟨hinv, hmoves.positive hpos, hledger.step hmoves rfl (by rw [if_neg hne]; rfl)⟩
  | fresh _ hcall ih =>
    obtain ⟨hinv, hpos, hledger⟩ := ih
    obtain ⟨hinv, hmoves⟩ := hinv.fresh hcall
    exact ⟨hinv, hmoves.positive hpos, hledger.step hmoves rfl rfl⟩
  | incr _ hroom hcall ih =>
    obtain ⟨hinv, hpos, hledger⟩ := ih
    obtain habsent | ⟨hne, hinv, hmoves⟩ := hinv.increment hpos hroom hcall
    · cases habsent
    · exact ⟨hinv, hmoves.positive hpos, hledger.step hmoves rfl (by rw [if_neg hne]; rfl)⟩
  | unpin _ hcall ih =>
    obtain ⟨hinv, hpos, hledger⟩ := ih
    obtain ⟨hinv, n, hmoves, rfl⟩ := hinv.trackUnpin hpos hcall
    refine ⟨hinv, hmoves.positive hpos, hledger.step hmoves rfl ?_⟩
    cases n <;> rfl

theorem sum_eq_zero_iff (h : Positive m) : sum b m = 0 ↔ count b m = 0 := by
  rw [sum, count, weigh_eq_zero, weigh_eq_zero]
  exact forall₃_congr fun e he _ => iff_of_false (h e he) one_ne_zero

/-- A pinned buffer is found, in a slot or in the map. -/
theorem Inv.found (h : Inv s) (hsum : sum b (bag s) ≠ 0) (hfind : s.find b = none) :
    0 < s.overflowed ∧ ∃ n, s.overflow.lookup b = some n := by
  rw [sum, Ne, weigh_eq_zero] at hsum
  push Not at hsum
  obtain ⟨e, hmem, rfl, -⟩ := hsum
  rcases mem_add.mp hmem with hslot | hmap
  · obtain ⟨i, -, hi⟩ := mem_sum.mp hslot
    have hnot := List.findSome?_eq_none_iff.mp hfind i (List.mem_finRange i)
    cases he : s.entries i <;> simp_all [slot]
  · rw [h.overflowed]
    exact ⟨card_pos_iff_exists_mem.mpr ⟨e, hmap⟩, mem_iff.mp (mem_map_of_mem Sigma.fst hmap)⟩

/-- The reported count is that of one entry. -/
theorem Inv.reported (h : Inv s) (hb : s.getPrivateRefCount b ≠ 0 ∨ sum b (bag s) ≠ 0) :
    ⟨b, s.getPrivateRefCount b⟩ ∈ bag s := by
  rw [getPrivateRefCount] at *
  cases hfind : s.find b with
  | some =>
    rw [← (bag_put_found hfind none).trans (add_zero _)]
    exact mem_add.mpr (.inr (mem_singleton_self _))
  | none =>
    obtain ⟨hpos, n, hn⟩ : s.overflowed ≠ 0 ∧ ∃ n, s.overflow.lookup b = some n := by
      refine hb.elim (fun hne => ?_) fun hne => (h.found hne hfind).imp_left Nat.ne_of_gt
      cases hmap : s.overflow.lookup b <;> simp_all
    simp [bag, ← entries_erase hn, hpos, hn]

/-- The count is zero for exactly the buffers that are not pinned, and never more than the pins. -/
theorem reported_refcount (h : Run Clean t s) (b : β) :
    (s.getPrivateRefCount b = 0 ↔ t.unpins b = t.pins b) ∧ s.getPrivateRefCount b + t.unpins b ≤ t.pins b := by
  obtain ⟨hinv, hpos, hsum, -⟩ := h.inv
  have hb := hsum b
  by_cases hne : s.getPrivateRefCount b ≠ 0 ∨ sum b (bag s) ≠ 0
  · have hmem := hinv.reported hne
    have hzero : s.getPrivateRefCount b ≠ 0 := hpos _ hmem
    obtain ⟨m, hm⟩ := exists_cons_of_mem hmem
    simp only [hm, sum, weigh, map_cons, sum_cons, if_true, id] at hb
    omega
  · omega

theorem reported_pair : ∃ t, ∃ s : PrivRef Nat, Run Clean t s ∧ t.pins 5 = 2 ∧
    s.getPrivateRefCount 5 = 1 ∧ s.getPrivateRefCount 5 + 0 ≤ 2 := by
  have h₁ : Run (β := Nat) Clean _ empty := .init
  have h₂ := (h₁.reserve (by rintro - ⟨⟩)).fresh (b := 5) rfl
  have h₃ := (h₂.reserve (by rintro - ⟨⟩)).fresh (b := 5) rfl
  exact ⟨_, _, h₃, rfl, rfl, (reported_refcount h₃ 5).2⟩

end PrivRef
