import Mathlib.Data.List.Nodup

/-!
A list of processes that wait for a leader. A process links itself in front of a shared list by a
compare-and-swap; who finds the list empty leads: it detaches the whole list, serves each member in
turn, and wakes them by clearing their flags. Members do not touch their links in between. Every
member is served exactly once between joining and being woken.
-/
namespace GroupList

open List

variable {ι : Type}

/-- The walk along `next` from `o` is the given list. -/
def Links (next : ι → Option ι) : Option ι → List ι → Prop
  | o, [] => o = none
  | o, i :: l => o = some i ∧ Links next (next i) l

variable {next : ι → Option ι} {l : List ι}

theorem Links.congr {next' : ι → Option ι} {o : Option ι} (h : Links next o l)
    (hsame : ∀ i ∈ l, next' i = next i) : Links next' o l := by
  induction l generalizing o with
  | nil => exact h
  | cons i l ih =>
    refine ⟨h.1, ?_⟩
    rw [hsame i mem_cons_self]
    exact ih h.2 fun j hj => hsame j (mem_cons_of_mem i hj)

theorem Links.eq_nil (h : Links next none l) : l = [] := by
  cases l with
  | nil => rfl
  | cons => cases h.1

theorem Links.cons_of_some (h : Links next (some i) l) : ∃ l', l = i :: l' ∧ Links next (next i) l' := by
  cases l with
  | nil => cases h
  | cons j l =>
    obtain ⟨heq, hrest⟩ := h
    cases heq
    exact ⟨l, rfl, hrest⟩

/-- Where a process is with respect to the list. -/
inductive Phase (ι : Type)
  | out
  | follow
  | lead
  | walk (nextidx wakeidx : Option ι)
  | wake (wakeidx : Option ι)

/-- The list, and of each process its link, its flag, its phase, and whether it has been served since
it joined. -/
structure Group (ι : Type) where
  first : Option ι
  next : ι → Option ι
  member : ι → Bool
  phase : ι → Phase ι
  served : ι → Bool

variable [DecidableEq ι]

open Function in
/-- The steps of process `i`. -/
inductive Step (g : Group ι) (i : ι) : Group ι → Prop
  | own (n m) (h : g.phase i = .out) : Step g i { g with next := update g.next i n, member := update g.member i m }
  | joinFollow (j) (h : g.phase i = .out) (hfirst : g.first = some j) (hnext : g.next i = some j)
      (hmember : g.member i = true) :
      Step g i { g with
        first := some i, phase := update g.phase i .follow, served := update g.served i false }
  | joinLead (h : g.phase i = .out) (hfirst : g.first = none) (hnext : g.next i = none)
      (hmember : g.member i = true) :
      Step g i { g with
        first := some i, phase := update g.phase i .lead, served := update g.served i false }
  | leave (h : g.phase i = .follow) (hmember : g.member i = false) :
      Step g i { g with phase := update g.phase i .out }
  | detach (h : g.phase i = .lead) :
      Step g i { g with first := none, phase := update g.phase i (.walk g.first g.first) }
  | serve (j w) (h : g.phase i = .walk (some j) w) :
      Step g i { g with phase := update g.phase i (.walk (g.next j) w), served := update g.served j true }
  | walked (w) (h : g.phase i = .walk none w) : Step g i { g with phase := update g.phase i (.wake w) }
  | wakeOne (j) (h : g.phase i = .wake (some j)) : Step g i { g with
        next := update g.next j none, member := update g.member j false,
        phase := update g.phase i (.wake (g.next j)) }
  | woken (h : g.phase i = .wake none) : Step g i { g with phase := update g.phase i .out }

/-- The members still on the list; of each leader, those it has yet to serve and yet to wake. -/
structure Lists (ι : Type) where
  pending : List ι
  todo : ι → List ι
  waking : ι → List ι

/-- What a phase says of the lists of its process. -/
def Phase.Fits (next : ι → Option ι) (todo waking : List ι) : Phase ι → Prop
  | walk n w => Links next n todo ∧ Links next w waking ∧ todo <:+ waking
  | wake w => todo = [] ∧ Links next w waking
  | _ => todo = [] ∧ waking = []

def Phase.leads : Phase ι → Bool
  | walk _ _ | wake _ => true
  | _ => false

structure Inv (g : Group ι) (L : Lists ι) : Prop where
  first : Links g.next g.first L.pending
  fits : ∀ i, (g.phase i).Fits g.next (L.todo i) (L.waking i)
  pendingNodup : L.pending.Nodup
  wakingNodup : ∀ i, (L.waking i).Nodup
  apart : ∀ i, ∀ j ∈ L.waking i, j ∉ L.pending
  once : ∀ i k j, j ∈ L.waking i → j ∈ L.waking k → i = k
  pendingPhase : ∀ j ∈ L.pending, g.phase j = .follow ∨ g.phase j = .lead
  pendingServed : ∀ j ∈ L.pending, g.served j = false
  pendingMember : ∀ j ∈ L.pending, g.member j = true
  wakingPhase : ∀ i, ∀ j ∈ L.waking i, g.phase j = .follow ∨ j = i
  wakingServed : ∀ i, ∀ j ∈ L.waking i, g.served j = false ↔ j ∈ L.todo i
  wakingMember : ∀ i, ∀ j ∈ L.waking i, g.member j = true
  lead : ∀ i, g.phase i = .lead → i ∈ L.pending
  leadOne : ∀ i k, g.phase i = .lead → g.phase k = .lead → i = k
  leads : ∀ i, (g.phase i).leads = true → i ∈ L.waking i ∨ g.served i = true
  follow : ∀ i, g.phase i = .follow → g.member i = true ∨ g.served i = true

attribute [grind cases] Inv

variable {g g' : Group ι} {L : Lists ι} {i j : ι}

open Function

section

omit [DecidableEq ι]

theorem Phase.Fits.congr {next' : ι → Option ι} {todo waking : List ι} {p : Phase ι}
    (h : p.Fits next todo waking) (hsame : ∀ j ∈ waking, next' j = next j) : p.Fits next' todo waking := by
  cases p with
  | walk => exact ⟨h.1.congr fun j hj => hsame j (h.2.2.subset hj), h.2.1.congr hsame, h.2.2⟩
  | wake => exact ⟨h.1, h.2.congr hsame⟩
  | _ => exact h

theorem Inv.not_pending (h : Inv g L) (hfollow : g.phase i ≠ .follow) (hlead : g.phase i ≠ .lead) : i ∉ L.pending :=
  fun hmem => (h.pendingPhase i hmem).elim hfollow hlead

/-- Who is out is on no list. -/
theorem Inv.out_not_mem (h : Inv g L) (hout : g.phase i = .out) : i ∉ L.pending ∧ ∀ k, i ∉ L.waking k := by
  refine ⟨h.not_pending (by rw [hout]; nofun) (by rw [hout]; nofun), fun k hmem => ?_⟩
  cases h.wakingPhase k i hmem with
  | inl hfollow =>
    rw [hout] at hfollow
    cases hfollow
  | inr hself =>
    have hfits := h.fits i
    rw [hout] at hfits
    rw [← hself, hfits.2] at hmem
    cases hmem

end

/-- What a process that is out does to its link and flag. -/
theorem Inv.own (h : Inv g L) (hout : g.phase i = .out) (n : Option ι) (m : Bool) :
    Inv { g with next := update g.next i n, member := update g.member i m } L := by
  obtain ⟨hpending, hwaking⟩ := h.out_not_mem hout
  have hne : ∀ (l : List ι), i ∉ l → ∀ j ∈ l, update g.next i n j = g.next j := by
    intro l hl j hj
    apply update_of_ne
    intro heq
    exact hl (heq ▸ hj)
  refine { h with
    first := h.first.congr (hne _ hpending)
    fits := fun k => (h.fits k).congr (hne _ (hwaking k))
    pendingMember := ?_
    wakingMember := ?_
    follow := ?_ }
  all_goals grind [update_apply]

/-- Joining, as a follower or as the leader. -/
theorem Inv.join (h : Inv g L) (hout : g.phase i = .out) (hnext : g.next i = g.first)
    (hmember : g.member i = true) (hp : p = .follow ∨ p = .lead) (hlead : p = .lead → g.first = none) :
    Inv { g with first := some i, phase := update g.phase i p, served := update g.served i false }
      { L with pending := i :: L.pending } := by
  obtain ⟨hpending, hwaking⟩ := h.out_not_mem hout
  have hnone : p = .lead → L.pending = [] := by
    intro hl
    have hfirst := h.first
    rw [hlead hl] at hfirst
    exact hfirst.eq_nil
  constructor
  case first =>
    refine ⟨rfl, ?_⟩
    rw [hnext]
    exact h.first
  case fits => grind [update_apply, Phase.Fits]
  case pendingNodup => exact nodup_cons.mpr ⟨hpending, h.pendingNodup⟩
  -- a new leader finds nobody on the list, so there was no leader
  case leadOne => grind [update_apply]
  all_goals grind [update_apply, Phase.leads]

/-- A process goes out when it is on no list. -/
theorem Inv.goOut (h : Inv g L) (hpending : i ∉ L.pending) (hwaking : ∀ k, i ∉ L.waking k)
    (htodo : L.todo i = []) (hnone : L.waking i = []) :
    Inv { g with phase := update g.phase i .out } L := by
  constructor
  case first => exact h.first
  case fits => grind [update_apply, Phase.Fits]
  all_goals grind [update_apply, Phase.leads]

omit [DecidableEq ι] in
/-- A leader is not on the shared list. -/
theorem Inv.leader_not_pending (h : Inv g L) (hlead : (g.phase i).leads = true) : i ∉ L.pending := by
  apply h.not_pending
  · intro heq
    rw [heq] at hlead
    cases hlead
  · intro heq
    rw [heq] at hlead
    cases hlead

/-- The leader goes from one of its phases to the next. -/
theorem Inv.leader (h : Inv g L) (hlead : (g.phase i).leads = true) (p : Phase ι) (todo waking : List ι)
    (hp : p.leads = true) (hfits : p.Fits next todo waking) (hnext : ∀ j, j ∉ L.waking i → next j = g.next j)
    (hmember : ∀ j, j ∉ L.waking i → member j = g.member j)
    (hserved : ∀ j, j ∉ L.waking i → served j = g.served j) (hkept : ∀ j, g.served j = true → served j = true)
    (hnodup : waking.Nodup) (hsub : ∀ j ∈ waking, j ∈ L.waking i) (hmem : ∀ j ∈ waking, member j = true)
    (hdone : ∀ j ∈ waking, served j = false ↔ j ∈ todo) (hself : i ∈ waking ∨ served i = true)
    (hgone : ∀ j ∈ L.waking i, j ∉ waking → served j = true) :
    Inv { g with next := next, member := member, served := served, phase := update g.phase i p }
      { L with todo := update L.todo i todo, waking := update L.waking i waking } := by
  have hapart : ∀ k, k ≠ i → ∀ j ∈ L.waking k, j ∉ L.waking i := fun k hk j hj hj' => hk (h.once k i j hj hj')
  constructor
  all_goals dsimp -failIfUnchanged only
  case first => exact h.first.congr fun j hj => hnext j fun hj' => h.apart i j hj' hj
  case fits =>
    intro k
    by_cases hk : k = i
    · rw [hk, update_self, update_self, update_self]
      exact hfits
    · rw [update_of_ne hk, update_of_ne hk, update_of_ne hk]
      exact (h.fits k).congr fun j hj => hnext j (hapart k hk j hj)
  all_goals grind [update_apply, Phase.leads]

/-- The leader takes the whole list; all the others on it follow. -/
theorem Inv.detach (h : Inv g L) (hlead : g.phase i = .lead) :
    Inv { g with first := none, phase := update g.phase i (.walk g.first g.first) }
      ⟨[], update L.todo i L.pending, update L.waking i L.pending⟩ := by
  constructor
  case first => rfl
  case fits => grind [update_apply, Phase.Fits]
  case pendingNodup => exact nodup_nil
  all_goals grind [update_apply, Phase.leads]

variable {w : Option ι}

/-- Serving the next member, which had not been served. -/
theorem Inv.serve (h : Inv g L) (hphase : g.phase i = .walk (some j) w) :
    ∃ L', Inv { g with phase := update g.phase i (.walk (g.next j) w), served := update g.served j true } L' := by
  have hfits := h.fits i
  rw [hphase] at hfits
  obtain ⟨hlinks, hwake, hsuffix⟩ := hfits
  obtain ⟨rest, htodo, hrest⟩ := hlinks.cons_of_some
  rw [htodo] at hsuffix
  have hj : j ∈ L.waking i := hsuffix.subset mem_cons_self
  have hnd : (j :: rest).Nodup := hsuffix.sublist.nodup (h.wakingNodup i)
  have hlead : (g.phase i).leads = true := by
    rw [hphase]
    rfl
  refine ⟨_, h.leader hlead (.walk (g.next j) w) rest (L.waking i) rfl
    ⟨hrest, hwake, (suffix_cons j rest).trans hsuffix⟩ (fun _ _ => rfl) (fun _ _ => rfl) ?_ ?_
    (h.wakingNodup i) (fun _ hk => hk) (h.wakingMember i) ?_ ?_ fun k hk hk' => absurd hk hk'⟩
  · intro k hk
    apply update_of_ne
    rintro rfl
    exact hk hj
  · intro k hk
    by_cases hkj : k = j
    · rw [hkj, update_self]
    · rw [update_of_ne hkj]
      exact hk
  · intro k hk
    have hserved := h.wakingServed i k hk
    rw [htodo, mem_cons] at hserved
    by_cases hkj : k = j
    · rw [hkj, update_self]
      exact ⟨nofun, fun hmem => absurd hmem (nodup_cons.mp hnd).1⟩
    · rw [update_of_ne hkj, hserved]
      exact or_iff_right hkj
  · cases h.leads i hlead with
    | inl hmem => exact .inl hmem
    | inr hserved =>
      right
      by_cases hij : i = j
      · rw [hij, update_self]
      · rw [update_of_ne hij]
        exact hserved

theorem Inv.walked (h : Inv g L) (hphase : g.phase i = .walk none w) :
    ∃ L', Inv { g with phase := update g.phase i (.wake w) } L' := by
  have hfits := h.fits i
  rw [hphase] at hfits
  obtain ⟨hlinks, hwake, _⟩ := hfits
  have htodo := hlinks.eq_nil
  have hlead : (g.phase i).leads = true := by
    rw [hphase]
    rfl
  refine ⟨_, h.leader hlead (.wake w) [] (L.waking i) rfl ⟨rfl, hwake⟩
    (fun _ _ => rfl) (fun _ _ => rfl) (fun _ _ => rfl) (fun _ hk => hk) (h.wakingNodup i)
    (fun _ hk => hk) (h.wakingMember i) ?_ (h.leads i hlead) fun k hk hk' => absurd hk hk'⟩
  intro k hk
  rw [h.wakingServed i k hk, htodo]

theorem Inv.wakeOne (h : Inv g L) (hphase : g.phase i = .wake (some j)) : ∃ L', Inv { g with
      next := update g.next j none, member := update g.member j false,
      phase := update g.phase i (.wake (g.next j)) } L' := by
  have hfits := h.fits i
  rw [hphase] at hfits
  obtain ⟨htodo, hwake⟩ := hfits
  obtain ⟨rest, hwaking, hrest⟩ := hwake.cons_of_some
  have hnd := h.wakingNodup i
  rw [hwaking, nodup_cons] at hnd
  have hj : j ∈ L.waking i := by
    rw [hwaking]
    exact mem_cons_self
  have hsub : ∀ k ∈ rest, k ∈ L.waking i := by
    rw [hwaking]
    exact fun k hk => mem_cons_of_mem j hk
  have hne : ∀ k ∈ rest, k ≠ j := fun k hk heq => hnd.1 (heq ▸ hk)
  have hserved : ∀ k ∈ L.waking i, g.served k = true := by
    intro k hk
    by_contra hs
    rw [Bool.not_eq_true, h.wakingServed i k hk, htodo] at hs
    cases hs
  have hlead : (g.phase i).leads = true := by
    rw [hphase]
    rfl
  refine ⟨_, h.leader hlead (.wake (g.next j)) [] rest rfl
    ⟨rfl, hrest.congr fun k hk => update_of_ne (hne k hk) _ _⟩ ?_ ?_ (fun _ _ => rfl)
    (fun _ hk => hk) hnd.2 hsub ?_ ?_ ?_ fun k hk _ => hserved k hk⟩
  · intro k hk
    apply update_of_ne
    rintro rfl
    exact hk hj
  · intro k hk
    apply update_of_ne
    rintro rfl
    exact hk hj
  · intro k hk
    rw [update_of_ne (hne k hk)]
    exact h.wakingMember i k (hsub k hk)
  · intro k hk
    rw [hserved k (hsub k hk)]
    exact ⟨nofun, nofun⟩
  · exact .inr ((h.leads i hlead).elim (hserved i) id)

section

omit [DecidableEq ι]

/-- Whoever is told to go, or has woken all others, has been served. -/
theorem Inv.served_of_leave (h : Inv g L) (hphase : g.phase i = .follow) (hmember : g.member i = false) :
    g.served i = true := by
  cases h.follow i hphase with
  | inl hmem =>
    rw [hmember] at hmem
    cases hmem
  | inr hserved => exact hserved

theorem Inv.served_of_woken (h : Inv g L) (hphase : g.phase i = .wake none) : g.served i = true := by
  have hfits := h.fits i
  rw [hphase] at hfits
  cases h.leads i (by rw [hphase]; rfl) with
  | inl hmem =>
    rw [hfits.2.eq_nil] at hmem
    cases hmem
  | inr hserved => exact hserved

/-- Whom a leader serves follows, or is the leader itself, and has not been served. -/
theorem Inv.unserved_of_serve (h : Inv g L) (hphase : g.phase i = .walk (some j) w) :
    (g.phase j = .follow ∨ j = i) ∧ g.served j = false := by
  have hfits := h.fits i
  rw [hphase] at hfits
  obtain ⟨hlinks, _, hsuffix⟩ := hfits
  obtain ⟨rest, htodo, _⟩ := hlinks.cons_of_some
  have hmem : j ∈ L.todo i := by
    rw [htodo]
    exact mem_cons_self
  have hj := hsuffix.subset hmem
  exact ⟨h.wakingPhase i j hj, (h.wakingServed i j hj).mpr hmem⟩

/-- Whom a leader wakes follows, or is the leader itself. -/
theorem Inv.phase_of_wakeOne (h : Inv g L) (hphase : g.phase i = .wake (some j)) : g.phase j = .follow ∨ j = i := by
  have hfits := h.fits i
  rw [hphase] at hfits
  obtain ⟨rest, hwaking, _⟩ := hfits.2.cons_of_some
  apply h.wakingPhase i j
  rw [hwaking]
  exact mem_cons_self

end

theorem Inv.step (h : Inv g L) (hstep : Step g i g') : ∃ L', Inv g' L' := by
  cases hstep with
  | own n m hout => exact ⟨L, h.own hout n m⟩
  | joinFollow j hout hfirst hnext hmember =>
    exact ⟨_, h.join hout (hnext.trans hfirst.symm) hmember (.inl rfl) nofun⟩
  | joinLead hout hfirst hnext hmember =>
    exact ⟨_, h.join hout (hnext.trans hfirst.symm) hmember (.inr rfl) fun _ => hfirst⟩
  | leave hphase hmember =>
    have hfits := h.fits i
    rw [hphase] at hfits
    refine ⟨L, h.goOut ?_ ?_ hfits.1 hfits.2⟩
    · intro hmem
      rw [h.pendingMember i hmem] at hmember
      cases hmember
    · intro k hmem
      rw [h.wakingMember k i hmem] at hmember
      cases hmember
  | detach hphase => exact ⟨_, h.detach hphase⟩
  | serve j w hphase => exact h.serve hphase
  | walked w hphase => exact h.walked hphase
  | wakeOne j hphase => exact h.wakeOne hphase
  | woken hphase =>
    have hfits := h.fits i
    rw [hphase] at hfits
    have hnil := hfits.2.eq_nil
    refine ⟨L, h.goOut (h.leader_not_pending (by rw [hphase]; rfl)) ?_ hfits.1 hnil⟩
    intro k hmem
    cases h.wakingPhase k i hmem with
    | inl hfollow =>
      rw [hphase] at hfollow
      cases hfollow
    | inr hself =>
      rw [← hself, hnil] at hmem
      cases hmem

omit [DecidableEq ι] in
/-- With everybody out and nobody on the list. -/
theorem Inv.init (hfirst : g.first = none) (hout : ∀ i, g.phase i = .out) :
    Inv g ⟨[], fun _ => [], fun _ => []⟩ := by
  have hno : ∀ i p, g.phase i = p → p = .out := fun i p hi => hi.symm.trans (hout i)
  constructor
  case first => exact hfirst
  case fits =>
    intro i
    rw [hout i]
    exact ⟨rfl, rfl⟩
  case pendingNodup => exact nodup_nil
  case wakingNodup => exact fun _ => nodup_nil
  case lead => exact fun i hi => nomatch hno i _ hi
  case leadOne => exact fun i _ hi => nomatch hno i _ hi
  case follow => exact fun i hi => nomatch hno i _ hi
  case leads =>
    intro i hi
    rw [hout i] at hi
    cases hi
  all_goals nofun

end GroupList
