import Pgrust.ShmMqSender

/-!
The receiver's side of the message queue, and what the queue is for: the receiver hands out the messages that
were sent, in order and byte for byte, and all of them before it reports that the sender has gone.
-/

namespace ShmMqStream

open ByteImage RingWindow ShmMq ShmMqSender List

variable {detached : Bool} {m : Message} {front : List Message}

/-- So many bytes in a row, from where the receiver reads, are written. -/
structure Row (R : RingSize) (rpos bytesWritten rb : Nat) : Prop where
  written : rpos + rb ≤ bytesWritten
  inRing : rpos % R.size + rb ≤ R.size

/-- The buffer holds the first `n` bytes of the message. -/
def HasBuffer (m : Message) (buffer : Nat → UInt8) (n : Nat) : Prop := ∀ i, i < n → m.bytes[i]? = some (buffer i)

/-- The receiver stands inside the frame of `m`. -/
structure Inside (m : Message) (front : List Message) (expected part rpos : Nat) (buffer : Nat → UInt8) : Prop where
  expected : expected = m.bytes.length
  more : part < m.bytes.length
  aligned : 8 ∣ part
  place : rpos = base frame front + lenWord + part
  buffer : HasBuffer m buffer part

def Wants (s : State) : Want → Prop
  | .length => s.rcv.lengthWordComplete = false
  | .first => s.rcv.lengthWordComplete = true ∧ s.rcv.partialBytes = 0
  | .more => s.rcv.lengthWordComplete = true

/-- The bytes up to `written` were not enough. -/
def Short (R : RingSize) (s : State) (w : Want) (written : Nat) : Prop :=
  written - s.rpos < s.rcv.needed w ∧ s.rpos % R.size + (written - s.rpos) < R.size

/-- What the result of the last call says. -/
def LastInv (R : RingSize) (s : State) (front : List Message) : Received → Prop
  | .detached => s.snd.pc.over ∧ s.succeeded <+: front
  | .ring offset nbytes => ∃ front' m, front = front' ++ [m] ∧ nbytes = m.bytes.length ∧
      (0 < nbytes → offset = (base frame front' + lenWord) % R.size) ∧ offset + nbytes ≤ R.size ∧
      s.bytesRead ≤ base frame front' + lenWord ∧ base frame front' + lenWord + nbytes ≤ s.bytesWritten
  | .buffer nbytes => ∃ front' m, front = front' ++ [m] ∧ nbytes = m.bytes.length ∧ HasBuffer m s.rcv.buffer nbytes
  | _ => True

def RecvPcInv (R : RingSize) (s : State) (front : List Message) : RecvPc → Prop
  | .idle last => LastInv R s front last
  | .sender counterpartyGone => counterpartyGone = true → s.snd.pc.over
  | .waitOver => s.snd.pc.over
  | .bytes _ w => Wants s w
  | .acknowledge _ w => Wants s w
  | .wait w => Wants s w
  | .short _ w written => Wants s w ∧ written ≤ s.bytesWritten ∧ Short R s w written
  | .recheck _ w written => Wants s w ∧ written ≤ s.bytesWritten ∧ Short R s w written ∧ s.snd.pc.over
  | .readLength _ rb word => s.rcv.lengthWordComplete = false ∧ Row R s.rpos s.bytesWritten rb ∧ lenWord ≤ rb ∧
      ∃ m, front ++ [m] <+: s.begun ∧ word.length ≤ lenWord ∧
        word = (leBytes lenWord m.bytes.length).take word.length
  | .copy _ rb k => s.rcv.lengthWordComplete = true ∧ Row R s.rpos s.bytesWritten rb ∧ k ≤ rb ∧
      ∀ m, front ++ [m] <+: s.begun → s.rcv.partialBytes + rb ≤ m.bytes.length ∧
        (8 ∣ rb ∨ s.rcv.partialBytes + rb = m.bytes.length) ∧
        HasBuffer m s.rcv.buffer (s.rcv.partialBytes + k)
  | _ => True

/-- The receiver's side of the invariant: it has handed out the messages `front`. -/
structure RecvInv (R : RingSize) (s : State) (front : List Message) : Prop where
  read : 8 ∣ s.bytesRead
  consume : 8 ∣ s.rcv.consumePending
  behind : s.rpos ≤ s.bytesWritten
  sent : front <+: s.begun
  returned : s.returned = front.map Message.bytes
  start : s.rcv.lengthWordComplete = false → s.rpos = base frame front ∧ s.rcv.partialBytes = 0
  inside : s.rcv.lengthWordComplete = true → ∃ m, front ++ [m] <+: s.begun ∧
      Inside m front s.rcv.expectedBytes s.rcv.partialBytes s.rpos s.rcv.buffer
  pc : RecvPcInv R s front s.rcv.pc

/-- The invariant of the queue. -/
structure Inv (R : RingSize) (s : State) : Prop where
  sender : SenderInv R s
  ring : RingInv R s
  receiver : ∃ front, RecvInv R s front
  cause : s.detached = true → s.snd.pc.over ∨ s.rcv.pc.over

variable {rb i k : Nat} {pc : RecvPc} {w : Want} {word : List UInt8}

section Stable

variable {R : RingSize} {s s' : State}

theorem next_unique (h : front ++ [m] <+: l) (h' : front ++ [m'] <+: l) : m = m' := by
  obtain ⟨rest, rfl⟩ := h
  obtain ⟨rest', heq⟩ := h'
  rw [append_assoc, append_assoc] at heq
  exact (List.cons.inj (append_cancel_left heq)).1.symm

theorem exists_next (h : front <+: l) (hlt : base frame front < base frame l) : ∃ m, front ++ [m] <+: l := by
  obtain ⟨rest, rfl⟩ := h
  cases rest with
  | nil =>
    rw [append_nil] at hlt
    exact absurd hlt (Nat.lt_irrefl _)
  | cons m rest => exact ⟨m, rest, by rw [append_assoc]; rfl⟩

theorem Row.mono (h : Row R rpos bytesWritten rb) (hle : bytesWritten ≤ bytesWritten') :
    Row R rpos bytesWritten' rb :=
  ⟨h.written.trans hle, h.inRing⟩

/-- The receiver's side survives a step of the sender. -/
theorem RecvInv.sender (h : RecvInv R s front) (hframe : SendFrame s s') : RecvInv R s' front := by
  obtain ⟨hrcv, hreturned, hread, hwritten, hbegun, -, -, halive⟩ := hframe
  cases s'
  subst hrcv hreturned hread
  refine ⟨h.read, h.consume, h.behind.trans hwritten, h.sent.trans hbegun, h.returned, h.start, ?_, ?_⟩
  · intro hlen
    obtain ⟨m, hm, hinside⟩ := h.inside hlen
    exact ⟨m, hm.trans hbegun, hinside⟩
  · have hpc := h.pc
    show RecvPcInv R _ front s.rcv.pc
    generalize s.rcv.pc = pc at hpc
    cases pc with
    | idle last =>
      cases last with
      | detached => exact absurd hpc.1 halive
      | ring =>
        obtain ⟨front', m, hfront, hn, hoff, hend, hlow, hhigh⟩ := hpc
        exact ⟨front', m, hfront, hn, hoff, hend, hlow, hhigh.trans hwritten⟩
      | _ => exact hpc
    | sender => exact fun hg => absurd (hpc hg) halive
    | waitOver => exact absurd hpc halive
    | recheck => exact absurd hpc.2.2.2 halive
    | short => exact ⟨hpc.1, hpc.2.1.trans hwritten, hpc.2.2⟩
    | readLength =>
      obtain ⟨hlen, hrow, hrb, m, hm, hword⟩ := hpc
      exact ⟨hlen, hrow.mono hwritten, hrb, m, hm.trans hbegun, hword⟩
    | copy =>
      obtain ⟨hlen, hrow, hk, hall⟩ := hpc
      obtain ⟨m, hm, -⟩ := h.inside hlen
      refine ⟨hlen, hrow.mono hwritten, hk, ?_⟩
      intro m' hm'
      rw [next_unique hm' (hm.trans hbegun)]
      exact hall m hm
    | _ => exact hpc

/-- What the sender can rely on when the receiver takes a step. -/
structure RecvFrame (s s' : State) : Prop where
  snd : s'.snd = s.snd
  ring : s'.ring = s.ring
  begun : s'.begun = s.begun
  succeeded : s'.succeeded = s.succeeded
  senderSet : s'.senderSet = s.senderSet
  bytesWritten : s'.bytesWritten = s.bytesWritten
  read : s.bytesRead ≤ s'.bytesRead
  detached : s.detached = true → s'.detached = true

theorem RecvFrame.own : RecvFrame s { s with rcv := h } := ⟨rfl, rfl, rfl, rfl, rfl, rfl, le_rfl, id⟩

theorem receiver_frame (hmove : ReceiverMove R s s') : RecvFrame s s' := by
  cases hmove with
  | attach | startWhole | takeWhole | readWhole | copyWhole => exact ⟨rfl, rfl, rfl, rfl, rfl, rfl, le_rfl, id⟩
  | goneWorker | neverAttached | close => exact ⟨rfl, rfl, rfl, rfl, rfl, rfl, le_rfl, fun _ => rfl⟩
  | acknowledgeMany | acknowledge => exact ⟨rfl, rfl, rfl, rfl, rfl, rfl, Nat.le_add_right _ _, id⟩
  | _ => exact .own

/-- More room, and the other side gone: neither disturbs the sender. -/
theorem sendPcInv_mono {v : SendView} {pc : SendPc} {bytesRead : Nat} (h : SendPcInv R v pc)
    (hread : v.bytesRead ≤ bytesRead) (hdet : v.detached = true → detached = true) :
    SendPcInv R { v with bytesRead := bytesRead, detached := detached } pc := by
  have hflight : ∀ {m : Message} {sent : Nat}, InFlight v m sent →
      InFlight { v with bytesRead := bytesRead, detached := detached } m sent :=
    fun h => ⟨h.begun, h.retry, h.start, h.within, h.aligned, h.place⟩
  have hbroken : Broken v → Broken { v with bytesRead := bytesRead, detached := detached } :=
    fun h => ⟨hdet h.detached, h.partialBytes, h.length⟩
  have hresting : Resting v → Resting { v with bytesRead := bytesRead, detached := detached } :=
    fun h => ⟨h.begun, h.retry, h.partialBytes, h.length, h.place⟩
  have hcomplete : ∀ {m : Message}, Complete v m →
      Complete { v with bytesRead := bytesRead, detached := detached } m :=
    fun h => ⟨h.begun, h.partialBytes, h.length, h.place⟩
  have hfits : ∀ {rest n : Nat}, Fits R v rest n →
      Fits R { v with bytesRead := bytesRead, detached := detached } rest n :=
    fun h => ⟨h.le, h.aligned, h.room.trans (Nat.add_le_add_right hread _)⟩
  cases pc with
  | unattached | stopped => exact ⟨hresting h.1, h.2⟩
  | idle =>
    rcases h with hrest | ⟨m, hin⟩ | hbr
    · exact .inl (hresting hrest)
    · exact .inr (.inl ⟨m, hflight hin⟩)
    · exact .inr (.inr (hbroken hbr))
  | send => exact h.imp hflight hbroken
  | sendBytes => exact h.imp hflight (fun h => ⟨hbroken h.1, h.2⟩)
  | gotRoom => exact h.imp (fun h => ⟨hflight h.1, h.2.1, hfits h.2.2⟩) hbroken
  | copy => exact ⟨hflight h.1, h.2.1, hfits h.2.2.1, h.2.2.2⟩
  | written | receiver | flush => exact hcomplete h
  | failed => trivial
  | closing | closed => exact h
  | _ => exact hflight h

/-- The sender's side survives a step of the receiver. -/
theorem senderInv_receiver (h : SenderInv R s) (hframe : RecvFrame s s') (hread : 8 ∣ s'.bytesRead) :
    SenderInv R s' := by
  obtain ⟨hsnd, -, hbegun, hsucceeded, hset, hwritten, hle, hdet⟩ := hframe
  cases s'
  subst hsnd hbegun hsucceeded hset hwritten
  refine ⟨h.written, h.pending, hread, ?_, h.succeeded, h.low, h.high, h.set, sendPcInv_mono h.pc hle hdet⟩
  exact h.space.trans (Nat.add_le_add_right hle _)

theorem ringInv_receiver (h : RingInv R s) (hframe : RecvFrame s s') : RingInv R s' := by
  have hwpos : s'.wpos = s.wpos := by
    rw [State.wpos, State.wpos, hframe.bytesWritten, hframe.snd]
  rw [RingInv, hframe.ring, hframe.begun, hwpos, hframe.snd]
  exact h.mono hframe.read (le_rfl)

end Stable

section Receiver

variable {R : RingSize} {s s' : State}

section

variable (h : RecvInv R s front)
include h

theorem RecvInv.here (hpc : s.rcv.pc = p) : RecvPcInv R s front p := by
  subst hpc
  exact h.pc

/-- A step that reads nothing. -/
theorem RecvInv.keep (hpc : RecvPcInv R s front pc) : RecvInv R { s with
      detached := detached, receiverSet := receiverSet
      rcv := { s.rcv with pc := pc, counterpartyAttached := known } } front := by
  refine ⟨h.read, h.consume, h.behind, h.sent, h.returned, h.start, h.inside, ?_⟩
  cases pc with
  | idle last => cases last <;> exact hpc
  | _ => exact hpc

/-- A step that only moves on. -/
theorem RecvInv.at (hpc : RecvPcInv R s front pc) : RecvInv R (s.recvAt pc) front := h.keep hpc

/-- The bytes consumed are given back. -/
theorem RecvInv.flush (hpc : RecvPcInv R s.flushRead front pc) : RecvInv R (s.flushRead.recvAt pc) front :=
  ⟨Nat.dvd_add h.read h.consume, Nat.dvd_zero 8, h.behind, h.sent, h.returned, h.start, h.inside, hpc⟩

theorem RecvInv.rpos_dvd : 8 ∣ s.rpos := Nat.dvd_add h.read h.consume

theorem RecvInv.offset_dvd : 8 ∣ s.rpos % R.size := (Nat.dvd_mod_iff R.aligned).mpr h.rpos_dvd

end

/-- The bytes of the stream between the two sides are in the ring. -/
theorem Inv.cell (h : Inv R s) (hlow : s.bytesRead ≤ p) (hhigh : p < s.bytesWritten) (hcell : p % R.size = i)
    (hb : (streamOf frame s.begun)[p]? = some (some b)) : s.ring i = b := by
  have hw : s.wpos = s.bytesWritten + s.snd.sendPending := rfl
  rw [← hcell]
  exact h.ring p b hlow (by omega) hb

/-- A byte of a message, as the ring has it. -/
theorem Inv.messageByte (h : Inv R s) (hm : front ++ [m] <+: s.begun) (hb : m.bytes[i]? = some b)
    (hlow : s.bytesRead ≤ base frame front + lenWord + i)
    (hhigh : base frame front + lenWord + i < s.bytesWritten)
    (hcell : (base frame front + lenWord + i) % R.size = k) : s.ring k = b := by
  have hflat : (leBytes lenWord m.bytes.length ++ m.bytes)[lenWord + i]? = some b := by
    rw [getElem?_append_right (by rw [leBytes_length]; omega), leBytes_length, Nat.add_sub_cancel_left]
    exact hb
  have hlt : lenWord + i < (frame m).length := (List.getElem?_eq_some_iff.mp (frame_byte hflat)).1
  apply h.cell hlow hhigh hcell
  rw [Nat.add_assoc, streamOf_frame hm hlt]
  exact frame_byte hflat

/-- A byte of a length word, as the ring has it. -/
theorem Inv.lengthByte (h : Inv R s) (hm : front ++ [m] <+: s.begun)
    (hb : (leBytes lenWord m.bytes.length)[i]? = some b) (hlow : s.bytesRead ≤ base frame front + i)
    (hhigh : base frame front + i < s.bytesWritten) (hcell : (base frame front + i) % R.size = k) :
    s.ring k = b := by
  have hi := (List.getElem?_eq_some_iff.mp hb).1
  have hflat : (leBytes lenWord m.bytes.length ++ m.bytes)[i]? = some b := by
    rw [getElem?_append_left hi]
    exact hb
  have hlt : i < (frame m).length := (List.getElem?_eq_some_iff.mp (frame_byte hflat)).1
  apply h.cell hlow hhigh hcell
  rw [streamOf_frame hm hlt]
  exact frame_byte hflat

/-- What lies in a row is a multiple of 8, and not empty where `receive_bytes` succeeds. -/
theorem RecvInv.row (h : RecvInv R s front) (hsender : SenderInv R s) (henough : s.Enough R w)
    (hneeded : 0 < s.rcv.needed w) :
    Row R s.rpos s.bytesWritten (s.inRow R) ∧ 8 ∣ s.inRow R ∧ 0 < s.inRow R := by
  have hoff := h.offset_dvd (R := R)
  have hrpos := h.rpos_dvd
  have hwritten := hsender.written
  have hsize := R.aligned
  have hmod := Nat.mod_lt s.rpos R.pos
  have hused : 0 < s.bytesWritten - s.rpos := by
    cases henough with
    | inl => omega
    | inr => omega
  have hrow : s.inRow R = min (s.bytesWritten - s.rpos) (R.size - s.rpos % R.size) := rfl
  refine ⟨⟨?_, ?_⟩, ?_, ?_⟩
  · omega
  · omega
  · by_cases hle : s.bytesWritten - s.rpos ≤ R.size - s.rpos % R.size
    · omega
    · omega
  · omega

theorem short_of_not_enough (h : ¬ s.Enough R w) : Short R s w s.bytesWritten := by
  rw [State.Enough, not_or] at h
  exact ⟨Nat.not_le.mp h.1, Nat.not_le.mp h.2⟩

theorem map_range_eq {l : List UInt8} {f : Nat → UInt8} (h : ∀ i, i < l.length → l[i]? = some (f i)) :
    (List.range l.length).map f = l := by
  apply ext_getElem
  · simp
  · intro i _ hi
    have hb := h i hi
    rw [getElem?_eq_getElem hi, Option.some.injEq] at hb
    rw [getElem_map, getElem_range, hb]

/-- What a result points to is the message handed out last. -/
theorem Inv.payload_ring (h : Inv R s) (hm : front ++ [m] <+: s.begun) {offset nbytes : Nat}
    (buffer : Nat → UInt8) (hlast : LastInv R s (front ++ [m]) (.ring offset nbytes)) :
    payload s.ring buffer (.ring offset nbytes) = m.bytes := by
  obtain ⟨front', m', hfront, hn, hoff, hend, hlow, hhigh⟩ := hlast
  obtain ⟨rfl, hmm⟩ := append_inj' hfront rfl
  rw [← singleton_inj.mp hmm] at hn
  rw [hn]
  apply map_range_eq
  intro i hi
  have hoffset := hoff (by omega)
  have hcell : (base frame front + lenWord + i) % R.size = offset + i := by
    rw [hoffset]
    apply mod_add
    omega
  rw [h.messageByte hm (getElem?_eq_getElem hi) (by omega) (by omega) hcell]
  exact getElem?_eq_getElem hi

theorem payload_buffer {ring buffer : Nat → UInt8} (hbuf : HasBuffer m buffer m.bytes.length) :
    payload ring buffer (.buffer m.bytes.length) = m.bytes := map_range_eq hbuf

/-- A message is handed out. -/
theorem RecvInv.deliver (h : RecvInv R s front) (hm : front ++ [m] <+: s.begun)
    (hlen : h'.lengthWordComplete = false) (hpart : h'.partialBytes = 0)
    (hk : h'.consumePending = s.rcv.consumePending + k) (h8 : 8 ∣ k)
    (hplace : s.rpos + k = base frame (front ++ [m])) (hbehind : s.rpos + k ≤ s.bytesWritten)
    (hpay : payload s.ring h'.buffer last = m.bytes)
    (hlast : LastInv R (s.deliver h' last) (front ++ [m]) last) :
    RecvInv R (s.deliver h' last) (front ++ [m]) := by
  have hrpos : (s.deliver h' last).rpos = s.rpos + k := by
    show s.bytesRead + h'.consumePending = s.bytesRead + s.rcv.consumePending + k
    rw [hk, Nat.add_assoc]
  refine ⟨h.read, ?_, ?_, hm, ?_, ?_, ?_, hlast⟩
  · show 8 ∣ h'.consumePending
    rw [hk]
    exact Nat.dvd_add h.consume h8
  · rw [hrpos]
    exact hbehind
  · show s.returned ++ [payload s.ring h'.buffer last] = _
    rw [h.returned, hpay, map_append]
    rfl
  · intro _
    rw [hrpos]
    exact ⟨hplace, hpart⟩
  · intro htrue
    have hfalse : h'.lengthWordComplete = true := htrue
    rw [hlen] at hfalse
    cases hfalse

/-- Once the sender is over, all it has written is visible. -/
theorem over_flushed (h : SenderInv R s) (hover : s.snd.pc.over) : s.wpos = s.bytesWritten := by
  have hpc := h.pc
  have hw : s.wpos = s.bytesWritten + s.snd.sendPending := rfl
  cases hover with
  | inl hstopped =>
    rw [hstopped] at hpc
    have hplace : s.wpos = base frame s.begun := hpc.1.place
    have hnil : s.begun = [] := hpc.2
    rw [hnil] at hplace
    have hzero : base frame ([] : List Message) = 0 := rfl
    omega
  | inr hclosed =>
    rw [hclosed] at hpc
    have hpending : s.snd.sendPending = 0 := hpc
    omega

/-- A sender that has not attached has sent nothing. -/
theorem unset_succeeded (h : SenderInv R s) (hset : s.senderSet = false) : s.succeeded = [] := by
  have hpc := h.pc
  have hsucc := h.succeeded
  have htrue := h.set
  rw [hset] at htrue
  have hnil : s.begun = [] := by
    generalize s.snd.pc = pc at hpc htrue
    cases pc with
    | unattached | stopped => exact hpc.2
    | _ => cases htrue rfl
  rw [hnil] at hsucc
  exact prefix_nil.mp hsucc

/-- With all bytes visible and not enough of them, there is no message left. -/
theorem RecvInv.all_received (h : RecvInv R s front) (hsender : SenderInv R s)
    (hover : s.snd.pc.over) (hwants : Wants s w) (hshort : Short R s w s.bytesWritten) : s.succeeded <+: front := by
  have hflushed := over_flushed hsender hover
  have hlow := hsender.low
  cases prefix_or_prefix_of_prefix hsender.succeeded h.sent with
  | inl hpre => exact hpre
  | inr hpre =>
    by_contra hnot
    obtain ⟨rest, hrest⟩ := hpre
    cases rest with
    | nil =>
      rw [append_nil] at hrest
      rw [hrest] at hnot
      exact hnot (prefix_refl _)
    | cons m rest =>
      have hm : front ++ [m] <+: s.succeeded := ⟨rest, by rw [← hrest, append_assoc]; rfl⟩
      have hbase : base frame (front ++ [m]) ≤ base frame s.succeeded := base_mono hm
      rw [base_concat, frame_length] at hbase
      have hmax := le_maxalign m.bytes.length
      have hneed := hshort.1
      have hin : s.rcv.lengthWordComplete = true →
          Inside m front s.rcv.expectedBytes s.rcv.partialBytes s.rpos s.rcv.buffer := by
        intro hlen
        obtain ⟨m', hm', hin⟩ := h.inside hlen
        rw [next_unique (hm.trans hsender.succeeded) hm']
        exact hin
      cases w with
      | length =>
        have hplace := (h.start hwants).1
        have hword : s.rcv.needed .length = lenWord := rfl
        omega
      | first =>
        obtain ⟨hexpected, -, -, hplace, -⟩ := hin hwants.1
        have hneeded : s.rcv.needed .first = s.rcv.expectedBytes := rfl
        have hpart : s.rcv.partialBytes = 0 := hwants.2
        omega
      | more =>
        obtain ⟨hexpected, -, -, hplace, -⟩ := hin hwants
        have hneeded : s.rcv.needed .more = s.rcv.expectedBytes - s.rcv.partialBytes := rfl
        omega

theorem readLength_start (h : Inv R s) (hr : RecvInv R s front) (hwants : Wants s .length)
    (henough : s.Enough R .length) (nowait : Bool) :
    RecvPcInv R s front (.readLength nowait (s.inRow R) []) := by
  obtain ⟨hrow, hdvd, hpos⟩ := hr.row h.sender henough (show 0 < lenWord by decide)
  have hplace := (hr.start hwants).1
  have hhigh := h.sender.high
  have hw : s.wpos = s.bytesWritten + s.snd.sendPending := rfl
  have hwritten := hrow.written
  have hlt : base frame front < base frame s.begun := by omega
  obtain ⟨m, hm⟩ := exists_next hr.sent hlt
  have hword : lenWord ≤ s.inRow R := by
    have h8 : lenWord = 8 := rfl
    omega
  exact ⟨hwants, hrow, hword, m, hm, Nat.zero_le _, rfl⟩

theorem readLength_next (h : Inv R s) (hr : RecvInv R s front)
    (hpc : RecvPcInv R s front (.readLength nowait rb word)) (hmore : word.length < lenWord) :
    RecvPcInv R s front (.readLength nowait rb (word ++ [s.ring (s.rpos % R.size + word.length)])) := by
  obtain ⟨hlen, hrow, hrb, m, hm, hle, hword⟩ := hpc
  have hplace := (hr.start hlen).1
  have hrpos : s.rpos = s.bytesRead + s.rcv.consumePending := rfl
  have hwritten := hrow.written
  have hin := hrow.inRing
  have hlt : word.length < (leBytes lenWord m.bytes.length).length := by
    exact hmore
  have hcell : (base frame front + word.length) % R.size = s.rpos % R.size + word.length := by
    rw [← hplace]
    exact mod_add (by omega)
  have hbyte := h.lengthByte hm (getElem?_eq_getElem hlt) (by omega) (by omega) hcell
  refine ⟨hlen, hrow, hrb, m, hm, ?_, ?_⟩
  · rw [length_append]
    exact hmore
  · rw [hbyte, length_append, length_singleton, take_add_one, getElem?_eq_getElem hlt, ← hword]
    rfl

/-- The word read is the length of the message. -/
theorem readLength_value (hpc : RecvPcInv R s front (.readLength nowait rb word))
    (hlength : word.length = lenWord) :
    ∃ m, front ++ [m] <+: s.begun ∧ leNat word = m.bytes.length := by
  obtain ⟨-, -, -, m, hm, -, hword⟩ := hpc
  refine ⟨m, hm, ?_⟩
  rw [hlength, take_of_length_le (by rw [leBytes_length])] at hword
  rw [hword, leNat_leBytes_of_lt (length_small m)]

theorem maxalign_lenWord : maxalign lenWord = lenWord := rfl

/-- A message that lies in a row behind its length word is handed out in place. -/
theorem readWhole_step (h : Inv R s) (hr : RecvInv R s front)
    (hpc : RecvPcInv R s front (.readLength nowait rb word)) (hlength : word.length = lenWord)
    (hall : maxalign lenWord + maxalign (leNat word) ≤ rb) :
    ∃ front', RecvInv R (s.deliver
        { s.rcv with consumePending := s.rcv.consumePending + (maxalign lenWord + maxalign (leNat word)) }
        (.ring (s.rpos % R.size + maxalign lenWord) (leNat word))) front' := by
  obtain ⟨m, hm, hvalue⟩ := readLength_value hpc hlength
  obtain ⟨hlen, ⟨hwritten, hin⟩, -, -⟩ := hpc
  obtain ⟨hplace, hpart⟩ := hr.start hlen
  have hrpos : s.rpos = s.bytesRead + s.rcv.consumePending := rfl
  have hmax := le_maxalign m.bytes.length
  rw [hvalue, maxalign_lenWord] at hall ⊢
  have hlast : LastInv R s (front ++ [m]) (.ring (s.rpos % R.size + lenWord) m.bytes.length) := by
    refine ⟨front, m, rfl, rfl, ?_, by omega, by omega, by omega⟩
    intro hpos
    rw [← hplace]
    exact (mod_add (by omega)).symm
  have hpay := h.payload_ring hm s.rcv.buffer hlast
  refine ⟨front ++ [m], hr.deliver hm hlen hpart rfl ?_ ?_ (by omega) hpay hlast⟩
  · exact Nat.dvd_add (Nat.dvd_refl 8) (maxalign_dvd _)
  · rw [base_concat, frame_length, hplace]

/-- A longer message: the receiver goes into its frame. -/
theorem readPart_step (hr : RecvInv R s front)
    (hpc : RecvPcInv R s front (.readLength nowait rb word)) (hlength : word.length = lenWord)
    (hpart : rb < maxalign lenWord + maxalign (leNat word)) :
    RecvInv R { s with
        rcv :=
          { s.rcv with
            pc := .resume nowait
            expectedBytes := leNat word
            lengthWordComplete := true
            consumePending := s.rcv.consumePending + maxalign lenWord } } front := by
  obtain ⟨m, hm, hvalue⟩ := readLength_value hpc hlength
  obtain ⟨hlen, ⟨hwritten, -⟩, hrb, -⟩ := hpc
  obtain ⟨hplace, hzero⟩ := hr.start hlen
  rw [hvalue, maxalign_lenWord] at hpart
  rw [hvalue]
  have hpos : 0 < m.bytes.length := by
    by_contra hnot
    have hnil : m.bytes.length = 0 := Nat.eq_zero_of_not_pos hnot
    rw [hnil, show maxalign 0 = 0 from rfl] at hpart
    omega
  have hrpos : s.bytesRead + (s.rcv.consumePending + lenWord) = s.rpos + lenWord := (Nat.add_assoc _ _ _).symm
  refine ⟨hr.read, Nat.dvd_add hr.consume (Nat.dvd_refl 8), ?_, hr.sent, hr.returned,
    fun hfalse => absurd hfalse Bool.noConfusion, fun _ => ⟨m, hm, ⟨rfl, ?_, ?_, ?_, ?_⟩⟩, trivial⟩
  · show s.bytesRead + (s.rcv.consumePending + lenWord) ≤ s.bytesWritten
    omega
  · show s.rcv.partialBytes < m.bytes.length
    omega
  · show 8 ∣ s.rcv.partialBytes
    rw [hzero]
    exact Nat.dvd_zero 8
  · show s.bytesRead + (s.rcv.consumePending + lenWord) = base frame front + lenWord + s.rcv.partialBytes
    omega
  · show HasBuffer m s.rcv.buffer s.rcv.partialBytes
    rw [hzero]
    exact fun i hi => absurd hi (Nat.not_lt_zero i)

/-- The rest of a message that lies in a row is handed out in place. -/
theorem takeWhole_step (h : Inv R s) (hr : RecvInv R s front) (hwants : Wants s .first)
    (henough : s.Enough R .first) (hall : s.rcv.expectedBytes ≤ s.inRow R) :
    ∃ front', RecvInv R (s.deliver { s.rcv with
          lengthWordComplete := false
          consumePending := s.rcv.consumePending + maxalign s.rcv.expectedBytes }
        (.ring (s.rpos % R.size) s.rcv.expectedBytes)) front' := by
  obtain ⟨hlen, hzero⟩ := hwants
  obtain ⟨m, hm, hexpected, hmore, -, hplace, -⟩ := hr.inside hlen
  obtain ⟨⟨hwritten, hring⟩, hdvd, hpos⟩ := hr.row h.sender henough (show 0 < s.rcv.expectedBytes by omega)
  have hrpos : s.rpos = s.bytesRead + s.rcv.consumePending := rfl
  rw [hexpected] at hall ⊢
  have hmax := maxalign_le hdvd hall
  rw [hzero, Nat.add_zero] at hplace
  have hlast : LastInv R s (front ++ [m]) (.ring (s.rpos % R.size) m.bytes.length) :=
    ⟨front, m, rfl, rfl, fun _ => by rw [hplace], by omega, by omega, by omega⟩
  have hpay := h.payload_ring hm s.rcv.buffer hlast
  refine ⟨front ++ [m], hr.deliver hm rfl hzero rfl (maxalign_dvd _) ?_ (by omega) hpay hlast⟩
  rw [base_concat, frame_length]
  omega

/-- A piece of a message, to be copied. -/
theorem copy_start (h : Inv R s) (hr : RecvInv R s front) (hlen : s.rcv.lengthWordComplete = true)
    (henough : s.Enough R w) (hneeded : 0 < s.rcv.needed w) (nowait : Bool)
    (hrb : rb = min (s.inRow R) (s.rcv.expectedBytes - s.rcv.partialBytes)) :
    RecvPcInv R s front (.copy nowait rb 0) := by
  obtain ⟨⟨hwritten, hring⟩, hdvd, hpos⟩ := hr.row h.sender henough hneeded
  obtain ⟨m, hm, hexpected, hmore, -, -, hbuf⟩ := hr.inside hlen
  refine ⟨hlen, ⟨by omega, by omega⟩, Nat.zero_le _, ?_⟩
  intro m' hm'
  rw [next_unique hm' hm]
  refine ⟨by omega, ?_, hbuf⟩
  by_cases hle : s.inRow R ≤ s.rcv.expectedBytes - s.rcv.partialBytes
  · rw [hrb, Nat.min_eq_left hle]
    exact .inl hdvd
  · exact .inr (by omega)

/-- One byte of a piece comes into the buffer. -/
theorem copyByte_step (h : Inv R s) (hr : RecvInv R s front)
    (hpc : RecvPcInv R s front (.copy nowait rb k)) (hmore : k < rb) :
    RecvInv R { s with
        rcv :=
          { s.rcv with
            pc := .copy nowait rb (k + 1)
            buffer := Function.update s.rcv.buffer (s.rcv.partialBytes + k) (s.ring (s.rpos % R.size + k)) } }
      front := by
  obtain ⟨hlen, hrow, hk, hall⟩ := hpc
  obtain ⟨m, hm, hin⟩ := hr.inside hlen
  obtain ⟨hle, haligned, hbuf⟩ := hall m hm
  have hplace := hin.place
  have hwritten := hrow.written
  have hring := hrow.inRing
  have hrpos : s.rpos = s.bytesRead + s.rcv.consumePending := rfl
  have hlt : s.rcv.partialBytes + k < m.bytes.length := by omega
  have hcell : (base frame front + lenWord + (s.rcv.partialBytes + k)) % R.size = s.rpos % R.size + k := by
    rw [← Nat.add_assoc, ← hplace]
    exact mod_add (by omega)
  have hbyte := h.messageByte hm (getElem?_eq_getElem hlt) (by omega) (by omega) hcell
  have hbuf' : HasBuffer m (Function.update s.rcv.buffer (s.rcv.partialBytes + k) (s.ring (s.rpos % R.size + k)))
      (s.rcv.partialBytes + (k + 1)) := by
    intro i hi
    by_cases heq : i = s.rcv.partialBytes + k
    · rw [heq, Function.update_self, hbyte, getElem?_eq_getElem hlt]
    · rw [Function.update_of_ne heq]
      exact hbuf i (by omega)
  refine ⟨hr.read, hr.consume, hr.behind, hr.sent, hr.returned, hr.start, ?_, ?_⟩
  · intro _
    refine ⟨m, hm, ⟨hin.expected, hin.more, hin.aligned, hin.place, ?_⟩⟩
    intro i hi
    exact hbuf' i (hi.trans_le (Nat.le_add_right _ _))
  · refine ⟨hlen, hrow, hmore, ?_⟩
    intro m' hm'
    rw [next_unique hm' hm]
    exact ⟨hle, haligned, hbuf'⟩

/-- A piece is copied, and more is to come. -/
theorem copyPart_step (hr : RecvInv R s front) (hpc : RecvPcInv R s front (.copy nowait rb rb))
    (hmore : s.rcv.partialBytes + rb < s.rcv.expectedBytes) :
    RecvInv R { s with
        rcv :=
          { s.rcv with
            pc := .bytes nowait .more
            partialBytes := s.rcv.partialBytes + rb
            consumePending := s.rcv.consumePending + maxalign rb } } front := by
  obtain ⟨hlen, ⟨hwritten, -⟩, -, hall⟩ := hpc
  obtain ⟨m, hm, hexpected, -, hpart, hplace, -⟩ := hr.inside hlen
  obtain ⟨hle, haligned, hbuf⟩ := hall m hm
  have hdvd : 8 ∣ rb := by
    cases haligned with
    | inl hdvd => exact hdvd
    | inr => omega
  rw [maxalign_of_dvd hdvd]
  have hrpos : s.bytesRead + (s.rcv.consumePending + rb) = s.rpos + rb := (Nat.add_assoc _ _ _).symm
  refine ⟨hr.read, Nat.dvd_add hr.consume hdvd, ?_, hr.sent, hr.returned,
    fun hfalse => absurd (hlen.symm.trans hfalse) Bool.noConfusion,
    fun _ => ⟨m, hm, ⟨hexpected, ?_, Nat.dvd_add hpart hdvd, ?_, hbuf⟩⟩, hlen⟩
  · show s.bytesRead + (s.rcv.consumePending + rb) ≤ s.bytesWritten
    rw [hrpos]
    exact hwritten
  · show s.rcv.partialBytes + rb < m.bytes.length
    omega
  · show s.bytesRead + (s.rcv.consumePending + rb) = base frame front + lenWord + (s.rcv.partialBytes + rb)
    omega

/-- The last piece is copied: the message is handed out from the buffer. -/
theorem copyWhole_step (hr : RecvInv R s front) (hsender : SenderInv R s)
    (hpc : RecvPcInv R s front (.copy nowait rb rb))
    (hall : s.rcv.expectedBytes ≤ s.rcv.partialBytes + rb) :
    ∃ front', RecvInv R (s.deliver { s.rcv with
          lengthWordComplete := false
          partialBytes := 0
          consumePending := s.rcv.consumePending + maxalign rb }
        (.buffer s.rcv.expectedBytes)) front' := by
  obtain ⟨hlen, ⟨hwritten, -⟩, -, hpiece⟩ := hpc
  obtain ⟨m, hm, hexpected, -, hpart, hplace, -⟩ := hr.inside hlen
  obtain ⟨hle, -, hbuf⟩ := hpiece m hm
  have hend : s.rcv.partialBytes + rb = m.bytes.length := by omega
  rw [hend] at hbuf
  rw [hexpected]
  have hdvd : 8 ∣ s.bytesWritten - s.rpos := Nat.dvd_sub hsender.written hr.rpos_dvd
  have hmax := maxalign_le hdvd (show rb ≤ s.bytesWritten - s.rpos by omega)
  refine ⟨front ++ [m], hr.deliver hm rfl rfl rfl (maxalign_dvd rb) ?_ (by omega) (payload_buffer hbuf)
    ⟨front, m, rfl, rfl, hbuf⟩⟩
  rw [base_concat, frame_length, ← hend, maxalign_add hpart]
  omega

/-- Every step of the receiver keeps its side of the invariant. -/
theorem receiver_step (h : Inv R s) (hr : RecvInv R s front) (hmove : ReceiverMove R s s') :
    ∃ front', RecvInv R s' front' := by
  -- a receiver that takes steps sees the flag only when the sender is over
  have hover : ¬ s.rcv.pc.over → s.detached = true → s.snd.pc.over :=
    fun halive hdet => (h.cause hdet).resolve_right halive
  cases hmove with
  | attach | someSender | close => exact ⟨front, hr.keep (by trivial)⟩
  | stop | goneAlive | waitNone | waitAlive | waitLatch | acknowledgeFew | tooLong | interrupted =>
    exact ⟨front, hr.at trivial⟩
  | call =>
    refine ⟨front, hr.at ?_⟩
    split_ifs <;> trivial
  | goneDetached hpc hdet => exact ⟨front, hr.at (fun _ => hover (by rw [hpc]; simp [RecvPc.over]) hdet)⟩
  | goneWorker hpc hsnd => exact ⟨front, hr.keep (by exact fun _ => hsnd)⟩
  | goneNot => exact ⟨front, hr.at (fun hfalse => absurd hfalse Bool.noConfusion)⟩
  | noSender g hpc hset =>
    refine ⟨front, hr.at ?_⟩
    cases g with
    | true =>
      refine ⟨hr.here hpc rfl, ?_⟩
      rw [unset_succeeded h.sender hset]
      exact nil_prefix
    | false => trivial
  | waitGone hpc hdet => exact ⟨front, hr.at (hover (by rw [hpc]; simp [RecvPc.over]) hdet)⟩
  | waitWorker hpc hsnd => exact ⟨front, hr.at hsnd⟩
  | neverAttached hpc hset =>
    have hsent : s.succeeded <+: front := by
      rw [unset_succeeded h.sender hset]
      exact nil_prefix
    exact ⟨front, hr.keep (by exact ⟨hr.here hpc, hsent⟩)⟩
  | acknowledgeMany => exact ⟨front, hr.flush trivial⟩
  | startLength _ _ hlen | startMore _ _ hlen => exact ⟨front, hr.at hlen⟩
  | startFirst nowait hpc hlen hlong hnone => exact ⟨front, hr.at ⟨hlen, hnone⟩⟩
  | startWhole nowait hpc hlen =>
    obtain ⟨m, -, hexpected, hmore, -⟩ := hr.inside hlen
    omega
  | takeLength nowait hpc henough => exact ⟨front, hr.at (readLength_start h hr (hr.here hpc) henough nowait)⟩
  | takeWhole nowait hpc henough hall => exact takeWhole_step h hr (hr.here hpc) henough hall
  | takeFirst nowait hpc henough =>
    obtain ⟨hlen, hzero⟩ := hr.here hpc
    refine ⟨front, hr.at (copy_start h hr hlen henough (show 0 < s.rcv.expectedBytes by omega) nowait ?_)⟩
    omega
  | takeMore nowait hpc henough =>
    obtain ⟨m, -, hexpected, hmore, -⟩ := hr.inside (hr.here hpc)
    exact ⟨front, hr.at (copy_start h hr (hr.here hpc) henough
      (show 0 < s.rcv.expectedBytes - s.rcv.partialBytes by omega) nowait rfl)⟩
  | tooShort nowait w hpc hshort => exact ⟨front, hr.at ⟨hr.here hpc, le_rfl, short_of_not_enough hshort⟩⟩
  | shortDetached nowait w written hpc hdet =>
    obtain ⟨hwants, hle, hshort⟩ := hr.here hpc
    exact ⟨front, hr.at ⟨hwants, hle, hshort, hover (by rw [hpc]; simp [RecvPc.over]) hdet⟩⟩
  | shortAlive _ _ _ hpc | recheckMore _ _ _ hpc => exact ⟨front, hr.at (hr.here hpc).1⟩
  | recheckSame nowait w written hpc hsame =>
    obtain ⟨hwants, hle, hshort, hsnd⟩ := hr.here hpc
    rw [hsame] at hshort
    exact ⟨front, hr.at ⟨hsnd, hr.all_received h.sender hsnd hwants hshort⟩⟩
  | acknowledge nowait w hpc =>
    have hwants := hr.here hpc
    refine ⟨front, hr.flush ?_⟩
    split_ifs
    · trivial
    · exact hwants
  | latch w hpc =>
    have hwants : Wants s w := hr.here hpc
    exact ⟨front, hr.at hwants⟩
  | readByte nowait rb word hpc hmore => exact ⟨front, hr.at (readLength_next h hr (hr.here hpc) hmore)⟩
  | readWhole nowait rb word hpc hword hall => exact readWhole_step h hr (hr.here hpc) hword hall
  | readPart nowait rb word hpc hword hpart => exact ⟨front, readPart_step hr (hr.here hpc) hword hpart⟩
  | copyByte nowait rb k hpc hmore => exact ⟨front, copyByte_step h hr (hr.here hpc) hmore⟩
  | copyPart nowait rb hpc hmore => exact ⟨front, copyPart_step hr (hr.here hpc) hmore⟩
  | copyWhole nowait rb hpc hall => exact copyWhole_step hr h.sender (hr.here hpc) hall

/-- The flag is only set when one of the two sides is over. -/
theorem receiver_cause (h : Inv R s) (hmove : ReceiverMove R s s') (hdet : s'.detached = true) :
    s'.snd.pc.over ∨ s'.rcv.pc.over := by
  have halive : ¬ s.rcv.pc.over := by
    rintro (hover | hover) <;> cases hmove <;> simp_all
  have hold : s.detached = true → s.snd.pc.over ∨ s'.rcv.pc.over :=
    fun hdet => .inl ((h.cause hdet).resolve_right halive)
  cases hmove with
  | goneWorker hpc hover => exact .inl hover
  | neverAttached hpc =>
    obtain ⟨front, hr⟩ := h.receiver
    have hpcinv := hr.pc
    rw [hpc] at hpcinv
    exact .inl hpcinv
  | close => exact .inr (.inr rfl)
  | _ => exact hold hdet

end Receiver

section Runs

variable {R : RingSize} {s : State}

theorem initial_inv (h : Initial s) : Inv R s := by
  obtain ⟨buffer, hrcv⟩ := h.rcv
  cases s
  obtain ⟨hread, hwritten, hdetached, hset, -, hsnd, -, hbegun, hsucceeded, hreturned⟩ := h
  subst hread hwritten hdetached hset hsnd hrcv hbegun hsucceeded hreturned
  have hzero : 8 ∣ 0 := Nat.dvd_zero 8
  refine ⟨⟨hzero, hzero, hzero, Nat.zero_le _, prefix_refl _, Nat.zero_le _, Nat.zero_le _, nofun, ?_⟩, ?_,
    ⟨[], hzero, hzero, Nat.zero_le _, nil_prefix, rfl, fun _ => ⟨rfl, rfl⟩, nofun, trivial⟩, nofun⟩
  · exact ⟨⟨rfl, rfl, rfl, rfl, rfl⟩, rfl⟩
  · intro p b hlow hhigh
    exact absurd hhigh (Nat.not_lt_zero p)

/-- The invariant holds however the steps of the two sides are interleaved. -/
theorem reachable_inv (h : Reachable R s) : Inv R s := by
  induction h with
  | init hinit => exact initial_inv hinit
  | sender h hmove ih =>
    have hframe := sender_frame hmove
    obtain ⟨front, hr⟩ := ih.receiver
    refine ⟨sender_step ih.sender hmove, sender_ring ih.sender ih.ring hmove, ⟨front, hr.sender hframe⟩, ?_⟩
    intro hdet
    rw [hframe.rcv]
    rcases hframe.cause hdet with hold | hrcv | hsnd
    · exact .inr ((ih.cause hold).resolve_left hframe.alive)
    · exact .inr hrcv
    · exact .inl hsnd
  | receiver h hmove ih =>
    have hframe := receiver_frame hmove
    obtain ⟨front, hr⟩ := ih.receiver
    obtain ⟨front', hr'⟩ := receiver_step ih hr hmove
    exact ⟨senderInv_receiver ih.sender hframe hr'.read, ringInv_receiver ih.ring hframe, ⟨front', hr'⟩,
      receiver_cause ih hmove⟩

/-- The result holds a payload. -/
def HoldsPayload : Received → Prop
  | .ring _ _ => True
  | .buffer _ => True
  | _ => False

/-- In every state: what was handed out is a prefix of what was sent, byte for byte; until the next call the
last payload is still where it was handed out; the bytes in use never exceed the ring; and a receiver that is
told that the sender has detached has got every message whose `send` succeeded. -/
theorem fifo_stream (h : Reachable R s) :
    s.returned <+: s.begun.map Message.bytes ∧ (∀ last, s.rcv.pc = .idle last → HoldsPayload last →
        s.returned.getLast? = some (payload s.ring s.rcv.buffer last)) ∧
      (s.bytesRead + s.rcv.consumePending ≤ s.bytesWritten ∧
        s.bytesWritten + s.snd.sendPending ≤ s.bytesRead + R.size) ∧
      (s.rcv.pc = .idle .detached → s.succeeded.map Message.bytes <+: s.returned) := by
  have hinv := reachable_inv h
  obtain ⟨front, hr⟩ := hinv.receiver
  have hpc := hr.pc
  refine ⟨?_, ?_, ⟨hr.behind, hinv.sender.space⟩, ?_⟩
  · rw [hr.returned]
    exact hr.sent.map _
  · intro last hidle hholds
    rw [hidle] at hpc
    cases last with
    | ring offset nbytes =>
      have hlast : LastInv R s front (.ring offset nbytes) := hpc
      obtain ⟨front', m, rfl, -⟩ := hpc
      rw [hinv.payload_ring hr.sent s.rcv.buffer hlast, hr.returned, map_append]
      exact getLast?_concat
    | buffer =>
      obtain ⟨front', m, rfl, rfl, hbuf⟩ := hpc
      rw [payload_buffer hbuf, hr.returned, map_append]
      exact getLast?_concat
    | nothing | wouldBlock | detached | failed => exact hholds.elim
  · intro hidle
    rw [hidle] at hpc
    rw [hr.returned]
    exact hpc.2.map _

end Runs

namespace Run

def eight : RingSize := ⟨8, by decide, by decide⟩

def empty : Message := ⟨[], by decide⟩

def call : Call := ⟨empty, false, true⟩

/-- A queue whose ring holds zeros. -/
def queue (r w : Nat) (snd : Sender) (rcv : Receiver) (sent got : List Message) (out : List (List UInt8)) : State :=
  ⟨fun _ => 0, r, w, false, true, true, snd, rcv, sent, got, out⟩

def sender (pc : SendPc) (pending : Nat) (complete attached : Bool) (retry : Option Message) : Sender :=
  ⟨pc, pending, 0, complete, attached, retry⟩

def receiver (pc : RecvPc) (consumed : Nat) (attached : Bool) : Receiver :=
  ⟨pc, consumed, 0, 0, false, attached, fun _ => 0⟩

/-- Both sides have attached. -/
theorem attached :
    Reachable eight (queue 0 0 (sender .idle 0 false false none) (receiver (.idle .nothing) 0 false) [] [] []) := by
  let s₀ : State := ⟨fun _ => 0, 0, 0, false, false, false, sender .unattached 0 false false none,
    receiver .unattached 0 false, [], [], []⟩
  have h₀ : Reachable eight s₀ := .init ⟨rfl, rfl, rfl, rfl, rfl, rfl, ⟨_, rfl⟩, rfl, rfl, rfl⟩
  have h₁ := Reachable.sender h₀ (.attach rfl)
  exact Reachable.receiver h₁ (.attach rfl)

/-- The bytes of the length word, all zero, are written one by one. -/
theorem copied_to (k : Nat) (hk : k ≤ 8) (h : Reachable eight
      (queue 0 0 (sender (.copy call 0 8 0) 0 false false (some empty)) rcv [empty] [] [])) :
    Reachable eight (queue 0 0 (sender (.copy call 0 8 k) 0 false false (some empty)) rcv [empty] [] []) := by
  induction k with
  | zero => exact h
  | succ k ih =>
    have hb : ((sender (.copy call 0 8 k) 0 false false (some empty)).slice call)[0 + k]? = some 0 := by
      have hcases : k = 0 ∨ k = 1 ∨ k = 2 ∨ k = 3 ∨ k = 4 ∨ k = 5 ∨ k = 6 ∨ k = 7 := by omega
      rcases hcases with rfl | rfl | rfl | rfl | rfl | rfl | rfl | rfl <;> rfl
    have hstep := Reachable.sender (ih (by omega)) (.copyByte call 0 8 k 0 rfl hk hb)
    have hring : Function.update (fun _ : Nat => (0 : UInt8)) (0 % 8 + k) 0 = fun _ => 0 :=
      Function.update_eq_self _ _
    show Reachable eight ⟨fun _ => 0, _, _, _, _, _, _, _, _, _, _⟩
    rw [← hring]
    exact hstep

/-- The empty message is sent. -/
theorem sent : Reachable eight
      (queue 0 8 (sender .idle 0 false true none) (receiver (.idle .nothing) 0 false) [empty] [empty] []) := by
  have h₁ := Reachable.sender attached (.begin call rfl rfl)
  have h₂ := Reachable.sender h₁ (.length call rfl rfl)
  have h₃ := Reachable.sender h₂ (.readRoom call 0 rfl (by decide))
  have h₄ := Reachable.sender h₃ (.roomCopy call 0 8 rfl rfl (by decide))
  have h₅ := Reachable.sender (copied_to 8 (Nat.le_refl 8) h₄) (.copyDone call 0 8 rfl)
  have h₆ := Reachable.sender h₅ (.bytesDone call 8 rfl (by decide))
  have h₇ := Reachable.sender h₆ (.whole call rfl rfl (by decide))
  have h₈ := Reachable.sender h₇ (.writtenAlive call rfl rfl)
  have h₉ := Reachable.sender h₈ (.readReceiver call rfl)
  exact Reachable.sender h₉ (.flush call rfl (.inl rfl))

theorem read_to (k : Nat) (hk : k ≤ 8)
    (h : Reachable eight (queue 0 8 snd (receiver (.readLength true 8 []) 0 true) [empty] [empty] [])) :
    Reachable eight
      (queue 0 8 snd (receiver (.readLength true 8 (List.replicate k 0)) 0 true) [empty] [empty] []) := by
  induction k with
  | zero => exact h
  | succ k ih =>
    have hstep := Reachable.receiver (ih (by omega))
      (.readByte true 8 (List.replicate k 0) rfl (by rw [length_replicate]; exact hk))
    rw [replicate_succ']
    exact hstep

/-- It is received, and the theorem applies. -/
theorem fifo_stream_empty : ∃ s : State, s.returned = [[]] ∧ s.returned <+: s.begun.map Message.bytes := by
  have h₁ := Reachable.receiver sent (.call true .nothing rfl)
  have h₂ := Reachable.receiver h₁ (.goneAlive rfl rfl)
  have h₃ := Reachable.receiver h₂ (.goneNot rfl)
  have h₄ := Reachable.receiver h₃ (.someSender true (.inl ⟨false, rfl, rfl⟩) rfl)
  have h₅ := Reachable.receiver h₄ (.acknowledgeFew true rfl (by decide))
  have h₆ := Reachable.receiver h₅ (.startLength true rfl rfl)
  have h₇ := Reachable.receiver h₆ (.takeLength true rfl (.inl (by decide)))
  have h₈ := read_to 8 (Nat.le_refl 8) h₇
  have h₉ := Reachable.receiver h₈ (.readWhole true 8 (List.replicate 8 0) rfl rfl (by decide))
  exact ⟨_, rfl, (fifo_stream h₉).1⟩

end Run

end ShmMqStream
