import Pgrust.ByteImage

/-!
The shared-memory message queue of one sender and one receiver, step by step: every read or write of shared
memory is one step, and copies to and from the ring go byte by byte. Counters count bytes since the queue was
made; an overflow of one stops its thread.
-/

namespace ShmMq

open ByteImage

def maxAllocSize : Nat := 0x3FFFFFFF

/-- The bytes of the length word in front of a message. -/
def lenWord : Nat := 8

def maxalign (len : Nat) : Nat := alignTo 8 len

/-- The size of a ring. -/
structure RingSize where
  size : Nat
  pos : 0 < size
  aligned : 8 ∣ size

structure Message where
  bytes : List UInt8
  small : bytes.length ≤ maxAllocSize

/-- A call of `send`. -/
structure Call where
  msg : Message
  nowait : Bool
  forceFlush : Bool

/-- Where the sender stands. `stopped` is a worker that ended before it attached. -/
inductive SendPc
  | unattached
  | stopped
  | idle
  | send (c : Call)
  | sendBytes (c : Call) (sent : Nat)
  | gotRoom (c : Call) (sent available : Nat)
  | gone (c : Call) (sent : Nat)
  | goneStopped (c : Call) (sent : Nat)
  | waitInternal (c : Call) (sent : Nat)
  | waitDetached (c : Call) (sent : Nat)
  | waitStopped (c : Call) (sent : Nat)
  | full (c : Call) (sent : Nat)
  | wait (c : Call) (sent : Nat)
  | copy (c : Call) (sent sendnow copied : Nat)
  | written (c : Call)
  | receiver (c : Call)
  | flush (c : Call)
  | failed
  | closing
  | closed

/-- The sender's handle. `retry` is the message a `WouldBlock` has left unfinished. -/
structure Sender where
  pc : SendPc
  sendPending : Nat
  partialBytes : Nat
  lengthWordComplete : Bool
  counterpartyAttached : Bool
  retry : Option Message

/-- What `send_bytes` is called with. -/
def Sender.slice (h : Sender) (c : Call) : List UInt8 :=
  if h.lengthWordComplete then c.msg.bytes.drop h.partialBytes
  else (leBytes lenWord c.msg.bytes.length).drop h.partialBytes

/-- The handle after `send_bytes` has written so many bytes. -/
def Sender.advance (h : Sender) (sent : Nat) : Sender :=
  if h.lengthWordComplete then { h with partialBytes := h.partialBytes + sent }
  else if lenWord ≤ h.partialBytes + sent then { h with partialBytes := 0, lengthWordComplete := true }
  else { h with partialBytes := h.partialBytes + sent }

/-- Which of its three calls of `receive_bytes` the receiver is in. -/
inductive Want
  | length
  | first
  | more
  deriving DecidableEq

/-- What the last `receive` has returned; a payload lies in the ring or in the buffer. -/
inductive Received
  | nothing
  | wouldBlock
  | detached
  | failed
  | ring (offset nbytes : Nat)
  | buffer (nbytes : Nat)
  deriving DecidableEq

inductive RecvPc
  | unattached
  | stopped
  | idle (last : Received)
  | gone
  | goneStopped
  | sender (counterpartyGone : Bool)
  | waitInternal
  | waitDetached
  | waitStopped
  | waitOver
  | attached (nowait : Bool)
  | resume (nowait : Bool)
  | bytes (nowait : Bool) (w : Want)
  | short (nowait : Bool) (w : Want) (written : Nat)
  | recheck (nowait : Bool) (w : Want) (written : Nat)
  | acknowledge (nowait : Bool) (w : Want)
  | wait (w : Want)
  | readLength (nowait : Bool) (rb : Nat) (word : List UInt8)
  | copy (nowait : Bool) (rb copied : Nat)
  | closed

/-- The receiver's handle. -/
structure Receiver where
  pc : RecvPc
  consumePending : Nat
  partialBytes : Nat
  expectedBytes : Nat
  lengthWordComplete : Bool
  counterpartyAttached : Bool
  buffer : Nat → UInt8

def Receiver.needed (h : Receiver) : Want → Nat
  | .length => lenWord
  | .first => h.expectedBytes
  | .more => h.expectedBytes - h.partialBytes

/-- The queue and both handles. `begun` are the messages `send` was called with, `succeeded` those it returned
`Success` for, and `returned` what `receive` has handed out. -/
structure State where
  ring : Nat → UInt8
  bytesRead : Nat
  bytesWritten : Nat
  detached : Bool
  senderSet : Bool
  receiverSet : Bool
  snd : Sender
  rcv : Receiver
  begun : List Message
  succeeded : List Message
  returned : List (List UInt8)

/-- Where the sender writes next. -/
def State.wpos (s : State) : Nat := s.bytesWritten + s.snd.sendPending

/-- Where the receiver reads next. -/
def State.rpos (s : State) : Nat := s.bytesRead + s.rcv.consumePending

/-- The payload a result points to. -/
def payload (ring buffer : Nat → UInt8) : Received → List UInt8
  | .ring offset nbytes => (List.range nbytes).map (fun i => ring (offset + i))
  | .buffer nbytes => (List.range nbytes).map buffer
  | _ => []

/-- `send` returns `Detached`. -/
def State.sendDetached (s : State) : State :=
  { s with
    snd := { s.snd with pc := .idle, partialBytes := 0, lengthWordComplete := false, retry := none } }

/-- `send` returns `WouldBlock`. -/
def State.sendWouldBlock (s : State) (sent : Nat) : State :=
  { s with snd := { s.snd.advance sent with pc := .idle } }

def State.sendAt (s : State) (pc : SendPc) : State := { s with snd := { s.snd with pc } }

def State.recvAt (s : State) (pc : RecvPc) : State := { s with rcv := { s.rcv with pc } }

/-- `inc_bytes_written` for all that is pending. -/
def State.flushWritten (s : State) : State :=
  { s with bytesWritten := s.wpos, snd := { s.snd with sendPending := 0 } }

/-- `inc_bytes_read` for all that is pending. -/
def State.flushRead (s : State) : State := { s with bytesRead := s.rpos, rcv := { s.rcv with consumePending := 0 } }

/-- `receive` returns a payload. -/
def State.deliver (s : State) (h : Receiver) (last : Received) : State :=
  { s with rcv := { h with pc := .idle last }, returned := s.returned ++ [payload s.ring h.buffer last] }

/-- The worker of the other side has ended: it never attached, or it has detached. -/
def SendPc.over (pc : SendPc) : Prop := pc = .stopped ∨ pc = .closed

def RecvPc.over (pc : RecvPc) : Prop := pc = .stopped ∨ pc = .closed

/-- The sender has attached. -/
def SendPc.live : SendPc → Bool
  | .unattached => false
  | .stopped => false
  | _ => true

/-- The steps of the sender. -/
inductive SenderMove (R : RingSize) (s : State) : State → Prop
  | attach (hpc : s.snd.pc = .unattached) : SenderMove R s ({ s with senderSet := true }.sendAt .idle)
  | stop (hpc : s.snd.pc = .unattached) : SenderMove R s (s.sendAt .stopped)
  | begin (c) (hpc : s.snd.pc = .idle) (hnew : s.snd.retry = none) : SenderMove R s { s with
          begun := s.begun ++ [c.msg]
          snd := { s.snd with pc := .send c, retry := some c.msg } }
  | again (c) (hpc : s.snd.pc = .idle) (hsame : s.snd.retry = some c.msg) : SenderMove R s (s.sendAt (.send c))
  | length (c) (hpc : s.snd.pc = .send c) (hlen : s.snd.lengthWordComplete = false) :
      SenderMove R s (s.sendAt (.sendBytes c 0))
  | payload (c) (hpc : s.snd.pc = .send c) (hlen : s.snd.lengthWordComplete = true)
      (hmore : s.snd.partialBytes < c.msg.bytes.length) : SenderMove R s (s.sendAt (.sendBytes c 0))
  | whole (c) (hpc : s.snd.pc = .send c) (hlen : s.snd.lengthWordComplete = true)
      (hall : c.msg.bytes.length ≤ s.snd.partialBytes) :
      SenderMove R s
        { s with snd := { s.snd with pc := .written c, partialBytes := 0, lengthWordComplete := false } }
  | bytesDone (c) (sent) (hpc : s.snd.pc = .sendBytes c sent) (hall : (s.snd.slice c).length ≤ sent) :
      SenderMove R s { s with snd := { s.snd.advance sent with pc := .send c } }
  | readRoom (c) (sent) (hpc : s.snd.pc = .sendBytes c sent) (hmore : sent < (s.snd.slice c).length) :
      SenderMove R s
        (s.sendAt (.gotRoom c sent (min (R.size - (s.wpos - s.bytesRead)) ((s.snd.slice c).length - sent))))
  | roomDetached (c) (sent available) (hpc : s.snd.pc = .gotRoom c sent available)
      (hdet : s.detached = true) : SenderMove R s s.sendDetached
  | roomUnknown (c) (sent) (hpc : s.snd.pc = .gotRoom c sent 0) (hdet : s.detached = false)
      (hatt : s.snd.counterpartyAttached = false) :
      SenderMove R s (s.sendAt (if c.nowait then .gone c sent else .waitInternal c sent))
  | roomFull (c) (sent) (hpc : s.snd.pc = .gotRoom c sent 0) (hdet : s.detached = false)
      (hatt : s.snd.counterpartyAttached = true) : SenderMove R s (s.sendAt (.full c sent))
  | roomCopy (c) (sent available) (hpc : s.snd.pc = .gotRoom c sent available)
      (hdet : s.detached = false) (hroom : 0 < available) :
      SenderMove R s (s.sendAt (.copy c sent (min available (R.size - s.wpos % R.size)) 0))
  | goneDetached (c) (sent) (hpc : s.snd.pc = .gone c sent) (hdet : s.detached = true) :
      SenderMove R s s.sendDetached
  | goneAlive (c) (sent) (hpc : s.snd.pc = .gone c sent) (hdet : s.detached = false) :
      SenderMove R s (s.sendAt (.goneStopped c sent))
  | goneWorker (c) (sent) (hpc : s.snd.pc = .goneStopped c sent) (hover : s.rcv.pc.over) :
      SenderMove R s { s with detached := true }.sendDetached
  | noReceiver (c) (sent) (hpc : s.snd.pc = .goneStopped c sent) (hset : s.receiverSet = false) :
      SenderMove R s (s.sendWouldBlock sent)
  | someReceiver (c) (sent)
      (hpc : s.snd.pc = .goneStopped c sent ∨ s.snd.pc = .waitInternal c sent) (hset : s.receiverSet = true) :
      SenderMove R s { s with snd := { s.snd with pc := .sendBytes c sent, counterpartyAttached := true } }
  | waitNone (c) (sent) (hpc : s.snd.pc = .waitInternal c sent) (hset : s.receiverSet = false) :
      SenderMove R s (s.sendAt (.waitDetached c sent))
  | waitGone (c) (sent) (hpc : s.snd.pc = .waitDetached c sent) (hdet : s.detached = true) :
      SenderMove R s s.sendDetached
  | waitAlive (c) (sent) (hpc : s.snd.pc = .waitDetached c sent) (hdet : s.detached = false) :
      SenderMove R s (s.sendAt (.waitStopped c sent))
  | waitWorker (c) (sent) (hpc : s.snd.pc = .waitStopped c sent) (hover : s.rcv.pc.over) :
      SenderMove R s { s with detached := true }.sendDetached
  | waitLatch (c) (sent) (hpc : s.snd.pc = .waitStopped c sent) : SenderMove R s (s.sendAt (.waitInternal c sent))
  | full (c) (sent) (hpc : s.snd.pc = .full c sent) :
      SenderMove R s (if c.nowait then s.flushWritten.sendWouldBlock sent else s.flushWritten.sendAt (.wait c sent))
  | latch (c) (sent) (hpc : s.snd.pc = .wait c sent) : SenderMove R s (s.sendAt (.sendBytes c sent))
  | interrupted (c) (sent) (hpc : s.snd.pc = .wait c sent ∨ s.snd.pc = .waitStopped c sent) :
      SenderMove R s (s.sendAt .failed)
  | copyByte (c) (sent sendnow copied) (b : UInt8) (hpc : s.snd.pc = .copy c sent sendnow copied)
      (hmore : copied < sendnow) (hb : (s.snd.slice c)[sent + copied]? = some b) :
      SenderMove R s ({ s with ring := Function.update s.ring (s.wpos % R.size + copied) b }.sendAt
          (.copy c sent sendnow (copied + 1)))
  | copyDone (c) (sent sendnow) (hpc : s.snd.pc = .copy c sent sendnow sendnow) : SenderMove R s { s with
          snd :=
            { s.snd with
              pc := .sendBytes c (sent + sendnow)
              sendPending := s.snd.sendPending + maxalign sendnow } }
  | writtenDetached (c) (hpc : s.snd.pc = .written c) (hdet : s.detached = true) : SenderMove R s s.sendDetached
  | writtenAlive (c) (hpc : s.snd.pc = .written c) (hdet : s.detached = false) :
      SenderMove R s (s.sendAt (.receiver c))
  | readReceiver (c) (hpc : s.snd.pc = .receiver c) : SenderMove R s { s with
          snd :=
            { s.snd with
              pc := .flush c
              counterpartyAttached := s.snd.counterpartyAttached || s.receiverSet } }
  | flush (c) (hpc : s.snd.pc = .flush c) (hflush : c.forceFlush = true ∨ R.size / 4 < s.snd.sendPending) :
      SenderMove R s { s.flushWritten with
          succeeded := s.succeeded ++ [c.msg]
          snd := { s.flushWritten.snd with pc := .idle, retry := none } }
  | keep (c) (hpc : s.snd.pc = .flush c) (hkeep : ¬ (c.forceFlush = true ∨ R.size / 4 < s.snd.sendPending)) :
      SenderMove R s
        { s with succeeded := s.succeeded ++ [c.msg], snd := { s.snd with pc := .idle, retry := none } }
  | detach (hpc : s.snd.pc = .idle ∨ s.snd.pc = .failed) : SenderMove R s (s.flushWritten.sendAt .closing)
  | close (hpc : s.snd.pc = .closing) : SenderMove R s ({ s with detached := true }.sendAt .closed)

/-- The test of `receive_bytes`: enough bytes, or all up to the end of the ring. -/
def State.Enough (R : RingSize) (s : State) (w : Want) : Prop :=
  s.rcv.needed w ≤ s.bytesWritten - s.rpos ∨ R.size ≤ s.rpos % R.size + (s.bytesWritten - s.rpos)

/-- The bytes in a row that `receive_bytes` hands over. -/
def State.inRow (R : RingSize) (s : State) : Nat := min (s.bytesWritten - s.rpos) (R.size - s.rpos % R.size)

/-- The steps of the receiver. -/
inductive ReceiverMove (R : RingSize) (s : State) : State → Prop
  | attach (hpc : s.rcv.pc = .unattached) : ReceiverMove R s ({ s with receiverSet := true }.recvAt (.idle .nothing))
  | stop (hpc : s.rcv.pc = .unattached) : ReceiverMove R s (s.recvAt .stopped)
  | call (nowait) (last) (hpc : s.rcv.pc = .idle last) : ReceiverMove R s (s.recvAt
          (if s.rcv.counterpartyAttached then .attached nowait else if nowait then .gone else .waitInternal))
  | goneDetached (hpc : s.rcv.pc = .gone) (hdet : s.detached = true) : ReceiverMove R s (s.recvAt (.sender true))
  | goneAlive (hpc : s.rcv.pc = .gone) (hdet : s.detached = false) : ReceiverMove R s (s.recvAt .goneStopped)
  | goneWorker (hpc : s.rcv.pc = .goneStopped) (hover : s.snd.pc.over) :
      ReceiverMove R s ({ s with detached := true }.recvAt (.sender true))
  | goneNot (hpc : s.rcv.pc = .goneStopped) : ReceiverMove R s (s.recvAt (.sender false))
  | noSender (counterpartyGone) (hpc : s.rcv.pc = .sender counterpartyGone) (hset : s.senderSet = false) :
      ReceiverMove R s (s.recvAt (.idle (if counterpartyGone then .detached else .wouldBlock)))
  | someSender (nowait) (hpc : (∃ g, s.rcv.pc = .sender g ∧ nowait = true) ∨
        ((s.rcv.pc = .waitInternal ∨ s.rcv.pc = .waitOver) ∧ nowait = false))
      (hset : s.senderSet = true) :
      ReceiverMove R s { s with rcv := { s.rcv with pc := .attached nowait, counterpartyAttached := true } }
  | waitNone (hpc : s.rcv.pc = .waitInternal) (hset : s.senderSet = false) :
      ReceiverMove R s (s.recvAt .waitDetached)
  | waitGone (hpc : s.rcv.pc = .waitDetached) (hdet : s.detached = true) : ReceiverMove R s (s.recvAt .waitOver)
  | waitAlive (hpc : s.rcv.pc = .waitDetached) (hdet : s.detached = false) :
      ReceiverMove R s (s.recvAt .waitStopped)
  | waitWorker (hpc : s.rcv.pc = .waitStopped) (hover : s.snd.pc.over) : ReceiverMove R s (s.recvAt .waitOver)
  | waitLatch (hpc : s.rcv.pc = .waitStopped) : ReceiverMove R s (s.recvAt .waitInternal)
  | neverAttached (hpc : s.rcv.pc = .waitOver) (hset : s.senderSet = false) :
      ReceiverMove R s ({ s with detached := true }.recvAt (.idle .detached))
  | acknowledgeMany (nowait) (hpc : s.rcv.pc = .attached nowait)
      (hmany : R.size / 4 < s.rcv.consumePending) : ReceiverMove R s (s.flushRead.recvAt (.resume nowait))
  | acknowledgeFew (nowait) (hpc : s.rcv.pc = .attached nowait)
      (hfew : ¬ R.size / 4 < s.rcv.consumePending) : ReceiverMove R s (s.recvAt (.resume nowait))
  | startLength (nowait) (hpc : s.rcv.pc = .resume nowait) (hlen : s.rcv.lengthWordComplete = false) :
      ReceiverMove R s (s.recvAt (.bytes nowait .length))
  | tooLong (nowait) (hpc : s.rcv.pc = .resume nowait) (hlen : s.rcv.lengthWordComplete = true)
      (hlong : maxAllocSize < s.rcv.expectedBytes) : ReceiverMove R s (s.recvAt (.idle .failed))
  | startFirst (nowait) (hpc : s.rcv.pc = .resume nowait) (hlen : s.rcv.lengthWordComplete = true)
      (hlong : ¬ maxAllocSize < s.rcv.expectedBytes) (hnone : s.rcv.partialBytes = 0) :
      ReceiverMove R s (s.recvAt (.bytes nowait .first))
  | startMore (nowait) (hpc : s.rcv.pc = .resume nowait) (hlen : s.rcv.lengthWordComplete = true)
      (hlong : ¬ maxAllocSize < s.rcv.expectedBytes) (hsome : s.rcv.partialBytes ≠ 0)
      (hmore : s.rcv.partialBytes < s.rcv.expectedBytes) : ReceiverMove R s (s.recvAt (.bytes nowait .more))
  | startWhole (nowait) (hpc : s.rcv.pc = .resume nowait) (hlen : s.rcv.lengthWordComplete = true)
      (hlong : ¬ maxAllocSize < s.rcv.expectedBytes) (hsome : s.rcv.partialBytes ≠ 0)
      (hall : s.rcv.expectedBytes ≤ s.rcv.partialBytes) :
      ReceiverMove R s
        (s.deliver { s.rcv with lengthWordComplete := false, partialBytes := 0 } (.buffer s.rcv.expectedBytes))
  | takeLength (nowait) (hpc : s.rcv.pc = .bytes nowait .length) (henough : s.Enough R .length) :
      ReceiverMove R s (s.recvAt (.readLength nowait (s.inRow R) []))
  | takeWhole (nowait) (hpc : s.rcv.pc = .bytes nowait .first) (henough : s.Enough R .first)
      (hall : s.rcv.expectedBytes ≤ s.inRow R) :
      ReceiverMove R s (s.deliver { s.rcv with
            lengthWordComplete := false
            consumePending := s.rcv.consumePending + maxalign s.rcv.expectedBytes }
          (.ring (s.rpos % R.size) s.rcv.expectedBytes))
  | takeFirst (nowait) (hpc : s.rcv.pc = .bytes nowait .first) (henough : s.Enough R .first)
      (hpart : s.inRow R < s.rcv.expectedBytes) : ReceiverMove R s (s.recvAt (.copy nowait (s.inRow R) 0))
  | takeMore (nowait) (hpc : s.rcv.pc = .bytes nowait .more) (henough : s.Enough R .more) :
      ReceiverMove R s (s.recvAt (.copy nowait (min (s.inRow R) (s.rcv.expectedBytes - s.rcv.partialBytes)) 0))
  | tooShort (nowait) (w) (hpc : s.rcv.pc = .bytes nowait w) (hshort : ¬ s.Enough R w) :
      ReceiverMove R s (s.recvAt (.short nowait w s.bytesWritten))
  | shortDetached (nowait) (w) (written) (hpc : s.rcv.pc = .short nowait w written)
      (hdet : s.detached = true) : ReceiverMove R s (s.recvAt (.recheck nowait w written))
  | shortAlive (nowait) (w) (written) (hpc : s.rcv.pc = .short nowait w written)
      (hdet : s.detached = false) : ReceiverMove R s (s.recvAt (.acknowledge nowait w))
  | recheckMore (nowait) (w) (written) (hpc : s.rcv.pc = .recheck nowait w written)
      (hmore : written ≠ s.bytesWritten) : ReceiverMove R s (s.recvAt (.bytes nowait w))
  | recheckSame (nowait) (w) (written) (hpc : s.rcv.pc = .recheck nowait w written)
      (hsame : written = s.bytesWritten) : ReceiverMove R s (s.recvAt (.idle .detached))
  | acknowledge (nowait) (w) (hpc : s.rcv.pc = .acknowledge nowait w) :
      ReceiverMove R s (s.flushRead.recvAt (if nowait then .idle .wouldBlock else .wait w))
  | latch (w) (hpc : s.rcv.pc = .wait w) : ReceiverMove R s (s.recvAt (.bytes false w))
  | interrupted (hpc : s.rcv.pc = .waitStopped ∨ ∃ w, s.rcv.pc = .wait w) :
      ReceiverMove R s (s.recvAt (.idle .failed))
  | readByte (nowait) (rb) (word) (hpc : s.rcv.pc = .readLength nowait rb word) (hmore : word.length < lenWord) :
      ReceiverMove R s (s.recvAt (.readLength nowait rb (word ++ [s.ring (s.rpos % R.size + word.length)])))
  | readWhole (nowait) (rb) (word) (hpc : s.rcv.pc = .readLength nowait rb word)
      (hword : word.length = lenWord) (hall : maxalign lenWord + maxalign (leNat word) ≤ rb) :
      ReceiverMove R s (s.deliver
          { s.rcv with consumePending := s.rcv.consumePending + (maxalign lenWord + maxalign (leNat word)) }
          (.ring (s.rpos % R.size + maxalign lenWord) (leNat word)))
  | readPart (nowait) (rb) (word) (hpc : s.rcv.pc = .readLength nowait rb word)
      (hword : word.length = lenWord) (hpart : rb < maxalign lenWord + maxalign (leNat word)) :
      ReceiverMove R s { s with
          rcv :=
            { s.rcv with
              pc := .resume nowait
              expectedBytes := leNat word
              lengthWordComplete := true
              consumePending := s.rcv.consumePending + maxalign lenWord } }
  | copyByte (nowait) (rb copied) (hpc : s.rcv.pc = .copy nowait rb copied) (hmore : copied < rb) :
      ReceiverMove R s { s with
          rcv :=
            { s.rcv with
              pc := .copy nowait rb (copied + 1)
              buffer := Function.update s.rcv.buffer (s.rcv.partialBytes + copied)
                (s.ring (s.rpos % R.size + copied)) } }
  | copyPart (nowait) (rb) (hpc : s.rcv.pc = .copy nowait rb rb)
      (hmore : s.rcv.partialBytes + rb < s.rcv.expectedBytes) :
      ReceiverMove R s { s with
          rcv :=
            { s.rcv with
              pc := .bytes nowait .more
              partialBytes := s.rcv.partialBytes + rb
              consumePending := s.rcv.consumePending + maxalign rb } }
  | copyWhole (nowait) (rb) (hpc : s.rcv.pc = .copy nowait rb rb)
      (hall : s.rcv.expectedBytes ≤ s.rcv.partialBytes + rb) :
      ReceiverMove R s (s.deliver { s.rcv with
            lengthWordComplete := false
            partialBytes := 0
            consumePending := s.rcv.consumePending + maxalign rb }
          (.buffer s.rcv.expectedBytes))
  | close (last) (hpc : s.rcv.pc = .idle last) : ReceiverMove R s ({ s with detached := true }.recvAt .closed)

/-- A new queue; its ring holds anything. -/
structure Initial (s : State) : Prop where
  bytesRead : s.bytesRead = 0
  bytesWritten : s.bytesWritten = 0
  detached : s.detached = false
  senderSet : s.senderSet = false
  receiverSet : s.receiverSet = false
  snd : s.snd = ⟨.unattached, 0, 0, false, false, none⟩
  rcv : ∃ buffer, s.rcv = ⟨.unattached, 0, 0, 0, false, false, buffer⟩
  begun : s.begun = []
  succeeded : s.succeeded = []
  returned : s.returned = []

/-- Sender and receiver take their steps in any order. -/
inductive Reachable (R : RingSize) : State → Prop
  | init {s : State} (h : Initial s) : Reachable R s
  | sender {s s' : State} (h : Reachable R s) (hmove : SenderMove R s s') : Reachable R s'
  | receiver {s s' : State} (h : Reachable R s) (hmove : ReceiverMove R s s') : Reachable R s'

end ShmMq
