import Pgrust.RingWindow
import Pgrust.ShmMq

/-!
The sender's side of the message queue. The messages lie end to end in a stream of frames; the sender stands
at a definite place of a frame, and the ring shows the part of the stream between the bytes acknowledged and
the bytes written.
-/

namespace ShmMqSender

open ByteImage RingWindow ShmMq List

variable {i : Nat} {m : Message}

/-- A message in the ring: its length, its bytes, and open bytes up to the next multiple of 8. -/
def frame (m : Message) : List (Option UInt8) :=
  (leBytes lenWord m.bytes.length ++ m.bytes).map some ++
    List.replicate (maxalign m.bytes.length - m.bytes.length) none

theorem le_maxalign (n : Nat) : n ≤ maxalign n := le_alignTo (by decide) n

theorem maxalign_lt (n : Nat) : maxalign n < n + 8 := alignTo_lt (by decide) n

theorem maxalign_dvd (n : Nat) : 8 ∣ maxalign n := alignTo_dvd 8 n

variable {n : Nat} {b : UInt8}

theorem maxalign_of_dvd (h : 8 ∣ n) : maxalign n = n := by
  have hle := le_maxalign n
  have hlt := maxalign_lt n
  have hdvd := maxalign_dvd n
  omega

theorem maxalign_add (ha : 8 ∣ a) (n : Nat) : maxalign (a + n) = a + maxalign n := alignTo_add (by decide) ha n

theorem maxalign_le (ha : 8 ∣ a) (h : n ≤ a) : maxalign n ≤ a := by
  have hlt := maxalign_lt n
  have hdvd := maxalign_dvd n
  omega

theorem frame_length (m) : (frame m).length = lenWord + maxalign m.bytes.length := by
  have hle := le_maxalign m.bytes.length
  rw [frame, length_append, length_map, length_append, leBytes_length, length_replicate]
  omega

/-- The bytes of a frame that hold something. -/
theorem frame_byte (h : (leBytes lenWord m.bytes.length ++ m.bytes)[i]? = some b) :
    (frame m)[i]? = some (some b) := by
  have hlt := (List.getElem?_eq_some_iff.mp h).1
  rw [frame, getElem?_append_left (by rw [length_map]; exact hlt), getElem?_map, h]
  rfl

theorem frame_open (h : lenWord + m.bytes.length ≤ i) (b) : (frame m)[i]? ≠ some (some b) := by
  have hlen : ((leBytes lenWord m.bytes.length ++ m.bytes).map some).length = lenWord + m.bytes.length := by
    rw [length_map, length_append, leBytes_length]
  rw [frame, getElem?_append_right (by omega), getElem?_replicate]
  split_ifs
  · simp
  · simp

theorem length_small (m : Message) : m.bytes.length < 256 ^ lenWord := by
  have h := m.small
  have hsmall : maxAllocSize < 256 ^ lenWord := by decide
  omega

/-- What the sender's place depends on. -/
structure SendView where
  begun : List Message
  succeeded : List Message
  retry : Option Message
  partialBytes : Nat
  lengthWordComplete : Bool
  sendPending : Nat
  wpos : Nat
  bytesRead : Nat
  detached : Bool

def sendView (s : State) : SendView where
  begun := s.begun
  succeeded := s.succeeded
  retry := s.snd.retry
  partialBytes := s.snd.partialBytes
  lengthWordComplete := s.snd.lengthWordComplete
  sendPending := s.snd.sendPending
  wpos := s.wpos
  bytesRead := s.bytesRead
  detached := s.detached

/-- How much of length word and bytes is written, with `sent` bytes of the present call. -/
def SendView.progress (v : SendView) (sent : Nat) : Nat :=
  if v.lengthWordComplete then lenWord + (v.partialBytes + sent) else sent

/-- The sender is at work on `m`: it stands in the frame behind those of the finished messages. -/
structure InFlight (v : SendView) (m : Message) (sent : Nat) : Prop where
  begun : v.begun = v.succeeded ++ [m]
  retry : v.retry = some m
  start : v.lengthWordComplete = false → v.partialBytes = 0 ∧ sent ≤ lenWord
  within : v.progress sent ≤ lenWord + m.bytes.length
  aligned : 8 ∣ v.progress sent ∨ v.progress sent = lenWord + m.bytes.length
  place : v.wpos = base frame v.succeeded + maxalign (v.progress sent)

/-- All bytes of `m` are written. -/
structure Complete (v : SendView) (m : Message) : Prop where
  begun : v.begun = v.succeeded ++ [m]
  partialBytes : v.partialBytes = 0
  length : v.lengthWordComplete = false
  place : v.wpos = base frame v.begun

/-- Nothing is in flight. -/
structure Resting (v : SendView) : Prop where
  begun : v.begun = v.succeeded
  retry : v.retry = none
  partialBytes : v.partialBytes = 0
  length : v.lengthWordComplete = false
  place : v.wpos = base frame v.begun

/-- A `send` has returned `Detached`: nothing will be written any more. -/
structure Broken (v : SendView) : Prop where
  detached : v.detached = true
  partialBytes : v.partialBytes = 0
  length : v.lengthWordComplete = false

/-- There is room for `n` of the `rest` bytes of a call. -/
structure Fits (R : RingSize) (v : SendView) (rest n : Nat) : Prop where
  le : n ≤ rest
  aligned : 8 ∣ n ∨ n = rest
  room : v.wpos + maxalign n ≤ v.bytesRead + R.size

/-- The bytes of a call of `send_bytes` still to come. -/
def SendView.rest (v : SendView) (m : Message) (sent : Nat) : Nat :=
  if v.lengthWordComplete then m.bytes.length - v.partialBytes - sent else lenWord - sent

def SendPcInv (R : RingSize) (v : SendView) : SendPc → Prop
  | .unattached => Resting v ∧ v.begun = []
  | .stopped => Resting v ∧ v.begun = []
  | .idle => Resting v ∨ (∃ m, InFlight v m 0) ∨ Broken v
  | .send c => InFlight v c.msg 0 ∨ Broken v
  | .sendBytes c sent => InFlight v c.msg sent ∨ (Broken v ∧ sent = 0)
  | .gotRoom c sent available =>
    (InFlight v c.msg sent ∧ 0 < v.rest c.msg sent ∧ Fits R v (v.rest c.msg sent) available) ∨ Broken v
  | .gone c sent => InFlight v c.msg sent
  | .goneStopped c sent => InFlight v c.msg sent
  | .waitInternal c sent => InFlight v c.msg sent
  | .waitDetached c sent => InFlight v c.msg sent
  | .waitStopped c sent => InFlight v c.msg sent
  | .full c sent => InFlight v c.msg sent
  | .wait c sent => InFlight v c.msg sent
  | .copy c sent sendnow copied =>
    InFlight v c.msg sent ∧ 0 < v.rest c.msg sent ∧ Fits R v (v.rest c.msg sent) sendnow ∧
      v.wpos % R.size + sendnow ≤ R.size ∧ copied ≤ sendnow
  | .written c => Complete v c.msg
  | .receiver c => Complete v c.msg
  | .flush c => Complete v c.msg
  | .failed => True
  | .closing => v.sendPending = 0
  | .closed => v.sendPending = 0

/-- The sender's side of the invariant. -/
structure SenderInv (R : RingSize) (s : State) : Prop where
  written : 8 ∣ s.bytesWritten
  pending : 8 ∣ s.snd.sendPending
  read : 8 ∣ s.bytesRead
  space : s.wpos ≤ s.bytesRead + R.size
  succeeded : s.succeeded <+: s.begun
  low : base frame s.succeeded ≤ s.wpos
  high : s.wpos ≤ base frame s.begun
  set : s.snd.pc.live = true → s.senderSet = true
  pc : SendPcInv R (sendView s) s.snd.pc

section Sender

variable {R : RingSize} {s s' : State} {v : SendView} {c : Call} {sent : Nat}

theorem progress_whole (h : v.lengthWordComplete = true) (sent : Nat) :
    v.progress sent = lenWord + (v.partialBytes + sent) := if_pos h

theorem progress_word (h : v.lengthWordComplete = false) (sent : Nat) : v.progress sent = sent := by
  rw [SendView.progress, h, if_neg Bool.false_ne_true]

theorem rest_whole (h : v.lengthWordComplete = true) : v.rest m sent = m.bytes.length - v.partialBytes - sent :=
  if_pos h

theorem rest_word (h : v.lengthWordComplete = false) : v.rest m sent = lenWord - sent := by
  rw [SendView.rest, h, if_neg Bool.false_ne_true]

theorem slice_length (h : InFlight (sendView s) c.msg sent) :
    (s.snd.slice c).length = (sendView s).rest c.msg sent + sent := by
  have hwithin := h.within
  rw [Sender.slice]
  cases hlen : s.snd.lengthWordComplete with
  | true =>
    rw [progress_whole hlen] at hwithin
    have hpart : (sendView s).partialBytes = s.snd.partialBytes := rfl
    rw [if_pos rfl, length_drop, rest_whole hlen]
    omega
  | false =>
    obtain ⟨hpart, hsent⟩ := h.start hlen
    have hpart' : s.snd.partialBytes = 0 := hpart
    rw [if_neg Bool.false_ne_true, hpart', drop_zero, leBytes_length, rest_word hlen]
    omega

/-- With bytes still to come, the sender stands at a multiple of 8. -/
theorem InFlight.aligned_of_rest (h : InFlight v m sent) (hrest : 0 < v.rest m sent) : 8 ∣ v.progress sent := by
  cases h.aligned with
  | inl hdvd => exact hdvd
  | inr heq =>
    rw [SendView.progress] at heq
    rw [SendView.rest] at hrest
    split_ifs at heq hrest with hlen
    · omega
    · omega

theorem InFlight.place_of_rest (h : InFlight v m sent) (hrest : 0 < v.rest m sent) :
    v.wpos = base frame v.succeeded + v.progress sent := by
  rw [h.place, maxalign_of_dvd (h.aligned_of_rest hrest)]

theorem progress_add (v : SendView) (sent n : Nat) : v.progress (sent + n) = v.progress sent + n := by
  rw [SendView.progress, SendView.progress]
  split_ifs <;> omega

/-- What is left of the message behind the bytes of this call. -/
theorem InFlight.progress_rest (h : InFlight v m sent) :
    v.progress sent + v.rest m sent = lenWord + m.bytes.length ∨
      (v.lengthWordComplete = false ∧ v.progress sent + v.rest m sent = lenWord) := by
  cases hlen : v.lengthWordComplete with
  | true =>
    have hwithin := h.within
    rw [progress_whole hlen] at hwithin ⊢
    rw [rest_whole hlen]
    omega
  | false =>
    have hstart := h.start hlen
    rw [progress_word hlen, rest_word hlen]
    right
    exact ⟨rfl, by omega⟩

section

variable (h : SenderInv R s)
include h

/-- A step that writes nothing. -/
theorem SenderInv.keep (hwritten : s'.bytesWritten = s.bytesWritten)
    (hpending : s'.snd.sendPending = s.snd.sendPending) (hread : s'.bytesRead = s.bytesRead)
    (hmessages : s'.succeeded = s.succeeded ∧ s'.begun = s.begun) (hset : s'.snd.pc.live = true → s'.senderSet = true)
    (hpc : SendPcInv R (sendView s') s'.snd.pc) : SenderInv R s' := by
  have hwpos : s'.wpos = s.wpos := by rw [State.wpos, hwritten, hpending, State.wpos]
  refine ⟨?_, ?_, ?_, ?_, ?_, ?_, ?_, hset, hpc⟩
  · exact hwritten ▸ h.written
  · exact hpending ▸ h.pending
  · exact hread ▸ h.read
  · exact hwpos ▸ hread ▸ h.space
  · exact hmessages.1 ▸ hmessages.2 ▸ h.succeeded
  · exact hwpos ▸ hmessages.1 ▸ h.low
  · exact hwpos ▸ hmessages.2 ▸ h.high

theorem SenderInv.here (hpc : s.snd.pc = p) (hlive : p.live = true) :
    s.senderSet = true ∧ SendPcInv R (sendView s) p := by
  subst hpc
  exact ⟨h.set hlive, h.pc⟩

/-- A step that only moves on. -/
theorem SenderInv.at {q : SendPc} (hpc : s.snd.pc = p) (hlive : p.live = true)
    (hnext : SendPcInv R (sendView s) p → SendPcInv R (sendView s) q) : SenderInv R (s.sendAt q) :=
  h.keep rfl rfl rfl ⟨rfl, rfl⟩ (fun _ => (h.here hpc hlive).1) (hnext (h.here hpc hlive).2)

/-- `send` returns `Detached`. -/
theorem SenderInv.detached (hset : s.senderSet = true) (hdet : s.detached = true) : SenderInv R s.sendDetached :=
  h.keep rfl rfl rfl ⟨rfl, rfl⟩ (fun _ => hset) (.inr (.inr ⟨hdet, rfl, rfl⟩))

theorem SenderInv.wpos_dvd : 8 ∣ s.wpos := Nat.dvd_add h.written h.pending

/-- All that is written becomes visible. -/
theorem SenderInv.flush (hset : s.senderSet = true) {pc : SendPc}
    (hpc : SendPcInv R (sendView s.flushWritten) pc) : SenderInv R (s.flushWritten.sendAt pc) :=
  ⟨h.wpos_dvd, Nat.dvd_zero 8, h.read, h.space, h.succeeded, h.low, h.high, fun _ => hset, hpc⟩

end

theorem InFlight.flush (h : InFlight (sendView s) m sent) : InFlight (sendView s.flushWritten) m sent :=
  ⟨h.begun, h.retry, h.start, h.within, h.aligned, h.place⟩

theorem sendView_advance (s) (sent : Nat) (pc : SendPc) :
    sendView { s with snd := { s.snd.advance sent with pc := pc } } =
      if s.snd.lengthWordComplete then { sendView s with partialBytes := s.snd.partialBytes + sent }
      else if lenWord ≤ s.snd.partialBytes + sent then
        { sendView s with partialBytes := 0, lengthWordComplete := true }
      else { sendView s with partialBytes := s.snd.partialBytes + sent } := by
  rw [Sender.advance]
  split_ifs <;> rfl

/-- Where the sender stands depends only on how much is written. -/
theorem InFlight.of_progress (h : InFlight v m sent) (hbegun : v'.begun = v.begun)
    (hsucceeded : v'.succeeded = v.succeeded) (hretry : v'.retry = v.retry) (hwpos : v'.wpos = v.wpos)
    (hstart : v'.lengthWordComplete = false → v'.partialBytes = 0 ∧ sent' ≤ lenWord)
    (hprogress : v'.progress sent' = v.progress sent) : InFlight v' m sent' := by
  refine ⟨?_, hretry.trans h.retry, hstart, ?_, ?_, ?_⟩
  · rw [hbegun, hsucceeded, h.begun]
  · rw [hprogress]
    exact h.within
  · rw [hprogress]
    exact h.aligned
  · rw [hwpos, hsucceeded, hprogress, h.place]

/-- The bytes of a call count for the message. -/
theorem InFlight.advance (h : InFlight (sendView s) m sent) (pc : SendPc) :
    InFlight (sendView { s with snd := { s.snd.advance sent with pc := pc } }) m 0 := by
  rw [sendView_advance]
  cases hlen : s.snd.lengthWordComplete with
  | true =>
    refine h.of_progress rfl rfl rfl rfl ?_ ?_
    · exact fun hfalse => absurd (hlen.symm.trans hfalse) Bool.noConfusion
    · exact (progress_whole hlen 0).trans (progress_whole (v := sendView s) hlen sent).symm
  | false =>
    obtain ⟨hpart, hsent⟩ := h.start hlen
    have hpart' : s.snd.partialBytes = 0 := hpart
    have haligned := h.aligned
    have hprogress := progress_word (v := sendView s) hlen sent
    rw [hpart', Nat.zero_add]
    by_cases hall : lenWord ≤ sent
    · rw [if_pos hall]
      refine h.of_progress rfl rfl rfl rfl ?_ ?_
      · exact fun hfalse => absurd hfalse Bool.noConfusion
      · rw [hprogress, Nat.le_antisymm hsent hall]
        rfl
    · have hzero : sent = 0 := by
        have h8 : lenWord = 8 := rfl
        omega
      rw [if_neg hall]
      refine h.of_progress rfl rfl rfl rfl ?_ ?_
      · exact fun _ => ⟨hzero, Nat.zero_le _⟩
      · rw [hprogress, hzero]
        exact progress_word hlen 0

/-- The room found is room for that many bytes. -/
theorem fits_room (h : SenderInv R s) (rest : Nat) :
    Fits R (sendView s) rest (min (R.size - (s.wpos - s.bytesRead)) rest) := by
  have hwpos := h.wpos_dvd
  have hread := h.read
  have hsize := R.aligned
  have hspace := h.space
  have hdvd : 8 ∣ R.size - (s.wpos - s.bytesRead) := by omega
  refine ⟨Nat.min_le_right _ _, ?_, ?_⟩
  · by_cases hle : R.size - (s.wpos - s.bytesRead) ≤ rest
    · rw [Nat.min_eq_left hle]
      exact .inl hdvd
    · exact .inr (Nat.min_eq_right (Nat.le_of_not_le hle))
  · have hmax := maxalign_le hdvd (Nat.min_le_left (R.size - (s.wpos - s.bytesRead)) rest)
    show s.wpos + _ ≤ s.bytesRead + R.size
    omega

/-- A piece ends where the ring ends. -/
theorem Fits.piece {rest available : Nat} (h : Fits R v rest available) (hwpos : 8 ∣ v.wpos) :
    Fits R v rest (min available (R.size - v.wpos % R.size)) ∧
      v.wpos % R.size + min available (R.size - v.wpos % R.size) ≤ R.size := by
  have hmod := Nat.mod_lt v.wpos R.pos
  have hdvd : 8 ∣ v.wpos % R.size := (Nat.dvd_mod_iff R.aligned).mpr hwpos
  have hsize := R.aligned
  have hroom := h.room
  have hle := h.le
  refine ⟨⟨?_, ?_, ?_⟩, ?_⟩
  · omega
  · by_cases hcase : available ≤ R.size - v.wpos % R.size
    · rw [Nat.min_eq_left hcase]
      exact h.aligned
    · omega
  · have hmax : maxalign (min available (R.size - v.wpos % R.size)) ≤ maxalign available :=
      maxalign_le (maxalign_dvd available) ((Nat.min_le_left _ _).trans (le_maxalign available))
    omega
  · omega

/-- A piece written moves the sender on. -/
theorem InFlight.piece (h : InFlight v m sent) (hrest : 0 < v.rest m sent) (hle : n ≤ v.rest m sent)
    (haligned : 8 ∣ n ∨ n = v.rest m sent) :
    InFlight { v with wpos := v.wpos + maxalign n, sendPending := v.sendPending + maxalign n } m (sent + n) := by
  have hdvd := h.aligned_of_rest hrest
  have hplace := h.place_of_rest hrest
  have hleft := h.progress_rest
  have hprogress : SendView.progress
      { v with wpos := v.wpos + maxalign n, sendPending := v.sendPending + maxalign n } (sent + n) =
        v.progress sent + n := progress_add v sent n
  refine ⟨h.begun, h.retry, ?_, ?_, ?_, ?_⟩
  · intro hfalse
    obtain ⟨hpart, hsent⟩ := h.start hfalse
    refine ⟨hpart, ?_⟩
    rw [SendView.rest, show v.lengthWordComplete = false from hfalse, if_neg Bool.false_ne_true] at hle
    omega
  · omega
  · rw [hprogress]
    cases haligned with
    | inl hn => exact .inl (Nat.dvd_add hdvd hn)
    | inr =>
      have h8 : lenWord = 8 := rfl
      cases hleft with
      | inl => exact .inr (by omega)
      | inr => exact .inl (by omega)
  · rw [hprogress, maxalign_add hdvd]
    show v.wpos + maxalign n = _
    rw [hplace]
    exact Nat.add_assoc _ _ _

/-- The sender does not leave the frame of its message. -/
theorem InFlight.high (h : InFlight v m sent) : v.wpos ≤ base frame v.begun := by
  have h8 : 8 ∣ lenWord := Nat.dvd_refl 8
  have hframe := maxalign_le (Nat.dvd_add h8 (maxalign_dvd m.bytes.length))
    (h.within.trans (Nat.add_le_add_left (le_maxalign m.bytes.length) lenWord))
  rw [h.place, h.begun, base_concat, frame_length]
  exact Nat.add_le_add_left hframe _

theorem InFlight.whole (h : InFlight v m 0) (hlen : v.lengthWordComplete = true)
    (hall : m.bytes.length ≤ v.partialBytes) : v.wpos = base frame v.begun := by
  have hwithin := h.within
  have hprogress : v.progress 0 = lenWord + v.partialBytes := progress_whole hlen 0
  have heq : v.partialBytes = m.bytes.length := by omega
  have h8 : 8 ∣ lenWord := Nat.dvd_refl 8
  rw [h.place, h.begun, base_concat, frame_length, hprogress, heq, maxalign_add h8]

theorem inFlight_begin (h : Resting v) (m) : InFlight { v with begun := v.begun ++ [m], retry := some m } m 0 := by
  have hprogress : SendView.progress { v with begun := v.begun ++ [m], retry := some m } 0 = 0 :=
    progress_word h.length 0
  refine ⟨?_, rfl, fun _ => ⟨h.partialBytes, Nat.zero_le _⟩, ?_, ?_, ?_⟩
  · show v.begun ++ [m] = v.succeeded ++ [m]
    rw [h.begun]
  · rw [hprogress]
    exact Nat.zero_le _
  · rw [hprogress]
    exact .inl (Nat.dvd_zero 8)
  · rw [hprogress]
    show v.wpos = base frame v.succeeded + 0
    rw [h.place, h.begun, Nat.add_zero]

theorem advance_sendPending (h : Sender) (sent : Nat) : (h.advance sent).sendPending = h.sendPending := by
  rw [Sender.advance]
  split_ifs <;> rfl

/-- `send` returns `WouldBlock`. -/
theorem SenderInv.wouldBlock (h : SenderInv R s) (hset : s.senderSet = true)
    (hflight : InFlight (sendView s) m sent) : SenderInv R (s.sendWouldBlock sent) :=
  h.keep rfl (advance_sendPending s.snd sent) rfl ⟨rfl, rfl⟩ (fun _ => hset) (.inr (.inl ⟨m, hflight.advance .idle⟩))

/-- A call of `send_bytes` is over. -/
theorem SenderInv.bytesDone (h : SenderInv R s) (hset : s.senderSet = true)
    (hflight : InFlight (sendView s) c.msg sent) :
    SenderInv R { s with snd := { s.snd.advance sent with pc := .send c } } :=
  h.keep rfl (advance_sendPending s.snd sent) rfl ⟨rfl, rfl⟩ (fun _ => hset) (.inl (hflight.advance (.send c)))

/-- The flag of the other side's end may be set on the way. -/
theorem SenderInv.setDetached (h : SenderInv R s) (hset : s.senderSet = true) :
    SenderInv R { s with detached := true }.sendDetached :=
  h.keep rfl rfl rfl ⟨rfl, rfl⟩ (fun _ => hset) (.inr (.inr ⟨rfl, rfl, rfl⟩))

/-- `send` returns `Success`. -/
theorem SenderInv.success (h : SenderInv R s) (hset : s.senderSet = true) (hdone : Complete (sendView s) m)
    (hwritten : 8 ∣ s'.bytesWritten) (hpending : 8 ∣ s'.snd.sendPending)
    (hview : sendView s' = { sendView s with
      succeeded := s.succeeded ++ [m], retry := none, sendPending := s'.snd.sendPending })
    (hset' : s'.senderSet = s.senderSet) (hpc : s'.snd.pc = .idle) : SenderInv R s' := by
  have hbegun : s.begun = s.succeeded ++ [m] := hdone.begun
  have hplace : s.wpos = base frame s.begun := hdone.place
  have hbegun' : s'.begun = s.begun := congrArg SendView.begun hview
  have hsucceeded : s'.succeeded = s.succeeded ++ [m] := congrArg SendView.succeeded hview
  have hwpos : s'.wpos = s.wpos := congrArg SendView.wpos hview
  have hread : s'.bytesRead = s.bytesRead := congrArg SendView.bytesRead hview
  refine ⟨hwritten, hpending, hread ▸ h.read, ?_, ?_, ?_, ?_, fun _ => hset'.trans hset, ?_⟩
  · rw [hwpos, hread]
    exact h.space
  · rw [hsucceeded, hbegun', hbegun]
  · rw [hsucceeded, hwpos, hplace, hbegun]
  · rw [hwpos, hbegun']
    exact h.high
  · rw [hpc, hview]
    exact .inl ⟨hbegun, rfl, hdone.partialBytes, hdone.length, hplace⟩

theorem not_broken (hdet : s.detached = false) : ¬ Broken (sendView s) := by
  intro h
  have hbroken : s.detached = true := h.detached
  rw [hdet] at hbroken
  cases hbroken

theorem broken_slice (h : Broken (sendView s)) (c) : (s.snd.slice c).length = lenWord := by
  have hlen : s.snd.lengthWordComplete = false := h.length
  have hpart : s.snd.partialBytes = 0 := h.partialBytes
  rw [Sender.slice, hlen, hpart, if_neg Bool.false_ne_true, drop_zero, leBytes_length]

/-- Every step of the sender keeps its side of the invariant. -/
theorem sender_step (h : SenderInv R s) (hmove : SenderMove R s s') : SenderInv R s' := by
  cases hmove with
  | attach hpc =>
    have hpcinv := h.pc
    rw [hpc] at hpcinv
    exact h.keep rfl rfl rfl ⟨rfl, rfl⟩ (fun _ => rfl) (.inl hpcinv.1)
  | stop hpc =>
    have hpcinv := h.pc
    rw [hpc] at hpcinv
    exact h.keep rfl rfl rfl ⟨rfl, rfl⟩ nofun hpcinv
  | begin c hpc hnew =>
    obtain ⟨hset, hpcinv⟩ := h.here hpc rfl
    have hpre : s.begun <+: s.begun ++ [c.msg] := prefix_append _ _
    refine ⟨h.written, h.pending, h.read, h.space, h.succeeded.trans hpre, h.low,
      h.high.trans (base_mono hpre), fun _ => hset, ?_⟩
    rcases hpcinv with hrest | ⟨m, hflight⟩ | hbroken
    · exact .inl (inFlight_begin hrest c.msg)
    · have hretry : s.snd.retry = some m := hflight.retry
      rw [hnew] at hretry
      cases hretry
    · exact .inr ⟨hbroken.detached, hbroken.partialBytes, hbroken.length⟩
  | again c hpc hsame =>
    apply h.at hpc rfl
    rintro (hrest | ⟨m, hflight⟩ | hbroken)
    · have hretry : s.snd.retry = none := hrest.retry
      rw [hsame] at hretry
      cases hretry
    · have hretry : s.snd.retry = some m := hflight.retry
      rw [hsame] at hretry
      rw [← Option.some.inj hretry] at hflight
      exact .inl hflight
    · exact .inr hbroken
  | length c hpc | payload c hpc => exact h.at hpc rfl (Or.imp_right fun hbroken => ⟨hbroken, rfl⟩)
  | whole c hpc hlen hall =>
    obtain ⟨hset, hflight | hbroken⟩ := h.here hpc rfl
    · exact h.keep rfl rfl rfl ⟨rfl, rfl⟩ (fun _ => hset) ⟨hflight.begun, rfl, rfl, hflight.whole hlen hall⟩
    · have hfalse : s.snd.lengthWordComplete = false := hbroken.length
      rw [hlen] at hfalse
      cases hfalse
  | bytesDone c sent hpc hall =>
    obtain ⟨hset, hflight | hbroken⟩ := h.here hpc rfl
    · exact h.bytesDone hset hflight
    · rw [broken_slice hbroken.1, hbroken.2] at hall
      exact absurd hall (by decide)
  | readRoom c sent hpc =>
    apply h.at hpc rfl
    rintro (hflight | hbroken)
    · have hlength := slice_length hflight
      rw [hlength, Nat.add_sub_cancel]
      exact .inl ⟨hflight, by omega, fits_room h _⟩
    · exact .inr hbroken.1
  | roomDetached c sent available hpc hdet | goneDetached c sent hpc hdet
  | waitGone c sent hpc hdet | writtenDetached c hpc hdet => exact h.detached (h.here hpc rfl).1 hdet
  | roomUnknown c sent hpc hdet =>
    refine h.at hpc rfl (fun hpcinv => ?_)
    have hroom := hpcinv.resolve_right (not_broken hdet)
    split_ifs
    · exact hroom.1
    · exact hroom.1
  | roomFull c sent hpc hdet => exact h.at hpc rfl (fun hpcinv => (hpcinv.resolve_right (not_broken hdet)).1)
  | roomCopy c sent available hpc hdet =>
    refine h.at hpc rfl (fun hpcinv => ?_)
    obtain ⟨hin, hrest, hfits⟩ := hpcinv.resolve_right (not_broken hdet)
    obtain ⟨hpiece, hend⟩ := hfits.piece h.wpos_dvd
    exact ⟨hin, hrest, hpiece, hend, Nat.zero_le _⟩
  | goneAlive c sent hpc | waitNone c sent hpc | waitAlive c sent hpc | waitLatch c sent hpc
  | writtenAlive c hpc => exact h.at hpc rfl id
  | goneWorker c sent hpc | waitWorker c sent hpc => exact h.setDetached (h.here hpc rfl).1
  | noReceiver c sent hpc => exact h.wouldBlock (h.here hpc rfl).1 (h.here hpc rfl).2
  | someReceiver c sent hpc =>
    obtain ⟨hlive, hflight⟩ : s.senderSet = true ∧ InFlight (sendView s) c.msg sent := by
      rcases hpc with hpc | hpc
      · exact h.here hpc rfl
      · exact h.here hpc rfl
    exact h.keep rfl rfl rfl ⟨rfl, rfl⟩ (fun _ => hlive) (.inl hflight)
  | full c sent hpc =>
    obtain ⟨hset, hpcinv⟩ := h.here hpc rfl
    have hflight : InFlight (sendView s.flushWritten) c.msg sent := hpcinv.flush
    have hflushed : SenderInv R (s.flushWritten.sendAt (.full c sent)) := h.flush hset hflight
    have hsame : s.flushWritten.sendAt (.full c sent) = s.flushWritten := by
      rw [← hpc]
      rfl
    rw [hsame] at hflushed
    split_ifs
    · exact hflushed.wouldBlock hset hflight
    · exact h.flush hset hflight
  | latch c sent hpc => exact h.at hpc rfl .inl
  | interrupted c sent hpc =>
    rcases hpc with hpc | hpc
    · exact h.at hpc rfl fun _ => trivial
    · exact h.at hpc rfl fun _ => trivial
  | copyByte c sent sendnow copied b hpc hmore =>
    obtain ⟨hset, hin, hrest, hfits, hend, -⟩ := h.here hpc rfl
    exact h.keep rfl rfl rfl ⟨rfl, rfl⟩ (fun _ => hset) ⟨hin, hrest, hfits, hend, hmore⟩
  | copyDone c sent sendnow hpc =>
    obtain ⟨hset, hin, hrest, hfits, hend, -⟩ := h.here hpc rfl
    have hnext := hin.piece hrest hfits.le hfits.aligned
    have hhigh := hnext.high
    have hroom := hfits.room
    have hlow := h.low
    have hw : s.wpos + maxalign sendnow = s.bytesWritten + (s.snd.sendPending + maxalign sendnow) :=
      Nat.add_assoc _ _ _
    refine ⟨h.written, Nat.dvd_add h.pending (maxalign_dvd sendnow), h.read, ?_, h.succeeded, ?_, ?_,
      fun _ => hset, .inl ?_⟩
    · show s.bytesWritten + (s.snd.sendPending + maxalign sendnow) ≤ s.bytesRead + R.size
      rw [← hw]
      exact hroom
    · show base frame s.succeeded ≤ s.bytesWritten + (s.snd.sendPending + maxalign sendnow)
      omega
    · show s.bytesWritten + (s.snd.sendPending + maxalign sendnow) ≤ base frame s.begun
      rw [← hw]
      exact hhigh
    · simp only [sendView, hw] at hnext
      exact hnext
  | readReceiver c hpc | close hpc =>
    obtain ⟨hset, hpcinv⟩ := h.here hpc rfl
    exact h.keep rfl rfl rfl ⟨rfl, rfl⟩ (fun _ => hset) hpcinv
  | flush c hpc =>
    obtain ⟨hset, hpcinv⟩ := h.here hpc rfl
    exact h.success hset hpcinv h.wpos_dvd (Nat.dvd_zero 8) rfl rfl rfl
  | keep c hpc =>
    obtain ⟨hset, hpcinv⟩ := h.here hpc rfl
    exact h.success hset hpcinv h.written h.pending rfl rfl rfl
  | detach hpc =>
    rcases hpc with hpc | hpc
    · exact h.flush (h.here hpc rfl).1 rfl
    · exact h.flush (h.here hpc rfl).1 rfl

/-- The bytes of a piece that are already in the ring. -/
def copied : SendPc → Nat
  | .copy _ _ _ k => k
  | _ => 0

/-- The ring shows the stream from the bytes acknowledged to the last byte written. -/
def RingInv (R : RingSize) (s : State) : Prop :=
  Shown R.size s.ring (streamOf frame s.begun) s.bytesRead (s.wpos + copied s.snd.pc)

/-- What the receiver can rely on when the sender takes a step. -/
structure SendFrame (s s' : State) : Prop where
  rcv : s'.rcv = s.rcv
  returned : s'.returned = s.returned
  bytesRead : s'.bytesRead = s.bytesRead
  written : s.bytesWritten ≤ s'.bytesWritten
  begun : s.begun <+: s'.begun
  detached : s.detached = true → s'.detached = true
  cause : s'.detached = true → s.detached = true ∨ s.rcv.pc.over ∨ s'.snd.pc.over
  alive : ¬ s.snd.pc.over

/-- A step that touches nothing but the sender's handle. -/
theorem SendFrame.own (halive : ¬ s.snd.pc.over) : SendFrame s { s with snd := h } :=
  ⟨rfl, rfl, rfl, le_rfl, prefix_refl _, id, .inl, halive⟩

theorem SendFrame.flush (halive : ¬ s.snd.pc.over) : SendFrame s { s.flushWritten with snd := h } :=
  ⟨rfl, rfl, rfl, Nat.le_add_right _ _, prefix_refl _, id, .inl, halive⟩

theorem SendFrame.worker (halive : ¬ s.snd.pc.over) (hover : s.rcv.pc.over) :
    SendFrame s { s with detached := true, snd := h } :=
  ⟨rfl, rfl, rfl, le_rfl, prefix_refl _, fun _ => rfl, fun _ => .inr (.inl hover), halive⟩

theorem sender_frame (hmove : SenderMove R s s') : SendFrame s s' := by
  have halive : ¬ s.snd.pc.over := by
    rintro (hover | hover) <;> cases hmove <;> simp_all
  cases hmove with
  | attach | keep | copyByte => exact ⟨rfl, rfl, rfl, le_rfl, prefix_refl _, id, .inl, halive⟩
  | begin => exact ⟨rfl, rfl, rfl, le_rfl, prefix_append _ _, id, .inl, halive⟩
  | goneWorker _ _ _ hover | waitWorker _ _ _ hover => exact .worker halive hover
  | full =>
    split_ifs
    · exact .flush halive
    · exact .flush halive
  | flush => exact ⟨rfl, rfl, rfl, Nat.le_add_right _ _, prefix_refl _, id, .inl, halive⟩
  | detach => exact .flush halive
  | close => exact ⟨rfl, rfl, rfl, le_rfl, prefix_refl _, fun _ => rfl, fun _ => .inr (.inr (.inr rfl)), halive⟩
  | _ => exact .own halive

/-- A step that writes nothing. -/
theorem RingInv.same (h : RingInv R s) (hring : s'.ring = s.ring) (hbegun : s'.begun = s.begun)
    (hread : s'.bytesRead = s.bytesRead) (hwpos : s'.wpos = s.wpos) (hpc : copied s'.snd.pc = 0) :
    RingInv R s' := by
  rw [RingInv, hring, hbegun, hread, hwpos, hpc]
  exact h.mono (le_rfl) (Nat.le_add_right _ _)

/-- The byte of the frame that a piece puts into the ring next. -/
theorem InFlight.byte (h : InFlight (sendView s) c.msg sent) (hk : sent + k < (s.snd.slice c).length)
    (hb : (s.snd.slice c)[sent + k]? = some b) : (streamOf frame s.begun)[s.wpos + k]? = some (some b) := by
  have hlength := slice_length h
  have hrest : 0 < (sendView s).rest c.msg sent := by omega
  have hplace : s.wpos = base frame s.succeeded + (sendView s).progress sent := h.place_of_rest hrest
  have hbegun : s.begun = s.succeeded ++ [c.msg] := h.begun
  have hflat : (leBytes lenWord c.msg.bytes.length ++ c.msg.bytes)[(sendView s).progress sent + k]? = some b := by
    rw [Sender.slice] at hb hk
    cases hlen : s.snd.lengthWordComplete with
    | true =>
      rw [hlen, if_pos rfl, getElem?_drop] at hb
      rw [progress_whole hlen, getElem?_append_right (by rw [leBytes_length]; omega)]
      rw [← hb]
      congr 1
      show lenWord + (s.snd.partialBytes + sent) + k - lenWord = _
      omega
    | false =>
      have hpart : s.snd.partialBytes = 0 := (h.start hlen).1
      rw [hlen, if_neg Bool.false_ne_true, hpart, drop_zero] at hb hk
      rw [progress_word hlen, getElem?_append_left hk]
      exact hb
  have hlt : (sendView s).progress sent + k < (frame c.msg).length :=
    (List.getElem?_eq_some_iff.mp (frame_byte hflat)).1
  rw [hplace, Nat.add_assoc, streamOf_frame (by rw [hbegun]) hlt]
  exact frame_byte hflat

/-- Behind a piece the ring is open up to the next multiple of 8. -/
theorem InFlight.piece_open {p : Nat} (h : InFlight (sendView s) c.msg sent)
    (hrest : 0 < (sendView s).rest c.msg sent) (hle : n ≤ (sendView s).rest c.msg sent)
    (haligned : 8 ∣ n ∨ n = (sendView s).rest c.msg sent) (hlow : s.wpos + n ≤ p)
    (hhigh : p < s.wpos + maxalign n) : (streamOf frame s.begun)[p]? ≠ some (some b) := by
  have hplace : s.wpos = base frame s.succeeded + (sendView s).progress sent := h.place_of_rest hrest
  have hbegun : s.begun = s.succeeded ++ [c.msg] := h.begun
  have hdvd := h.aligned_of_rest hrest
  have hnot : ¬ 8 ∣ n := by
    intro hn
    rw [maxalign_of_dvd hn] at hhigh
    omega
  have hn := haligned.resolve_left hnot
  have h8 : lenWord = 8 := rfl
  have hend : (sendView s).progress sent + n = lenWord + c.msg.bytes.length := by
    cases h.progress_rest with
    | inl hend =>
      rw [hn]
      exact hend
    | inr => omega
  obtain ⟨i, rfl⟩ := Nat.exists_eq_add_of_le (show base frame s.succeeded ≤ p by omega)
  have hpiece := (h.piece hrest hle haligned).high
  have hlt : i < (frame c.msg).length := by
    have hhigh' : s.wpos + maxalign n ≤ base frame s.begun := hpiece
    rw [hbegun, base_concat] at hhigh'
    omega
  rw [streamOf_frame (by rw [hbegun]) hlt]
  exact frame_open (by omega) b

theorem sender_ring (h : SenderInv R s) (hring : RingInv R s) (hmove : SenderMove R s s') : RingInv R s' := by
  have hpcinv := h.pc
  cases hmove with
  | begin c hpc =>
    rw [RingInv, hpc] at hring
    exact hring.extend (streamOf_initial (prefix_append _ _)) h.high
  | roomUnknown c =>
    refine hring.same rfl rfl rfl rfl ?_
    show copied (if c.nowait then _ else _) = 0
    split_ifs <;> rfl
  | full c sent =>
    split_ifs
    · refine hring.same rfl rfl rfl ?_ rfl
      show s.wpos + (s.flushWritten.snd.advance sent).sendPending = _
      rw [advance_sendPending]
      rfl
    · exact hring.same rfl rfl rfl rfl rfl
  | bytesDone c sent | noReceiver c sent =>
    refine hring.same rfl rfl rfl ?_ rfl
    show s.bytesWritten + (s.snd.advance sent).sendPending = _
    rw [advance_sendPending]
    rfl
  | copyByte c sent sendnow k b hpc hmore hb =>
    rw [hpc] at hpcinv
    obtain ⟨hin, hrest, hfits, hend, -⟩ := hpcinv
    have hroom : s.wpos + maxalign sendnow ≤ s.bytesRead + R.size := hfits.room
    have hmax := le_maxalign sendnow
    have hwrap : s.wpos % R.size + sendnow ≤ R.size := hend
    have hle := hfits.le
    have hlength := slice_length hin
    have hbyte := hin.byte (by omega) hb
    rw [RingInv, hpc] at hring
    have hshown : Shown R.size s.ring (streamOf frame s.begun) s.bytesRead (s.wpos + k) := hring
    have hpush := hshown.push (show s.wpos + k < s.bytesRead + R.size by omega) hbyte
    rw [mod_add (by omega)] at hpush
    exact hpush
  | copyDone c sent sendnow hpc =>
    rw [hpc] at hpcinv
    obtain ⟨hin, hrest, hfits, -, -⟩ := hpcinv
    rw [RingInv, hpc] at hring
    have hskip : Shown R.size s.ring (streamOf frame s.begun) s.bytesRead (s.wpos + maxalign sendnow) :=
      hring.skip (fun p hlow hhigh b => hin.piece_open hrest hfits.le hfits.aligned hlow hhigh)
    show Shown R.size s.ring _ s.bytesRead (s.bytesWritten + (s.snd.sendPending + maxalign sendnow) + 0)
    rw [← Nat.add_assoc]
    exact hskip
  | _ => exact hring.same rfl rfl rfl rfl rfl

end Sender

end ShmMqSender
