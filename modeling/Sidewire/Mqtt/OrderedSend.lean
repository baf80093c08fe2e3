import Sidewire.Mqtt.Client

/-! # Queueing a signed message

`ordered_ack_send` and its async twin agree except for where the signature is
computed: the part before the `await` checks the arguments, stamps the message
id and picks the sequence number, the part after it registers the message
unless that sequence number is taken by then.
-/

namespace Sidewire

namespace MQTTClient

variable {KP : Type} (A : Aio KP)

/-- Stamp a message id as sent; a repeated one is only logged. -/
def stampSent (c : MQTTClient KP) (id : String) (now : ℚ) : MQTTClient KP :=
  if c.sentMsgIds.contains id then c else { c with sentMsgIds := c.sentMsgIds.set id now }

def ensureQueue (c : MQTTClient KP) (t : MsgEnum) (q : String) : MQTTClient KP :=
  if (c.msgQueues t).contains q then c
  else { c.putQueue t q ⟨c.nextObj, ∅⟩ with nextObj := c.nextObj + 1 }

def nextSeqNo (c : MQTTClient KP) (t : MsgEnum) (q : String) : ℤ :=
  match (((c.queue t q).map fun d => d.metas.keys).getD []).max? with
  | some m => m + 1
  | none => 0

def checkLengths (dest q : String) : Except PyExc Unit :=
  if q.length ≠ 64 then
    .error (.valueError ("queue_id_hex must be 64 hex chars, got " ++ toString q.length))
  else if dest.length ≠ 66 then
    .error (.valueError ("dest_pk_hex must be 66 hex chars, got " ++ toString dest.length))
  else .ok ()

/-- `ordered_ack_send` up to the construction of the packet. -/
def orderedAckSendBegin (now : ℚ) (msg : PyMsg) (dest q : String) (t : MsgEnum)
    (seqNo : Option ℤ) : ClientM KP ℤ := do
  match checkLengths dest q with
  | .error e => throw e
  | .ok () => pure ()
  if t = .msg then modify fun c => c.stampSent (A.sha256Hex (A.toB msg)) now
  modify fun c => c.ensureQueue t q
  let c ← get
  return seqNo.getD (c.nextSeqNo t q)

def newMeta (c : MQTTClient KP) (now : ℚ) (dest : String) (s : ℤ) (out : Bytes)
    (probeOneShot : Bool) : Meta where
  appAck := c.nextObj
  destPkHex := dest
  seqNo := s
  out := out
  updated := 0
  created := now
  attempts := 0
  probeOneShot := probeOneShot

def register (c : MQTTClient KP) (t : MsgEnum) (q : String) (d : Queue) (m : Meta) (msg : PyMsg) :
    MQTTClient KP :=
  { c.putQueue t q { d with metas := d.metas.set m.seqNo m } with
    nextObj := c.nextObj + 1
    queued := c.queued ++ [⟨t, q, m.seqNo, m.destPkHex, msg, m.out, m.appAck⟩] }

/-- `ordered_ack_send` from the packed bytes on. -/
def orderedAckSendEnd (now : ℚ) (msg : PyMsg) (dest q : String) (t : MsgEnum) (s : ℤ)
    (out : Bytes) : ClientM KP ((String × ℤ) × ℕ) := do
  let c ← get
  match c.queue t q with
  | none => throw (.keyError q)
  | some d =>
    match d.metas.get? s with
    | some m => return ((q, s), m.appAck)
    | none =>
      let m := c.newMeta now dest s out false
      set (c.register t q d m msg)
      return ((q, s), m.appAck)

def ofExcept {α : Type} : Except PyExc α → ClientM KP α
  | .ok a => pure a
  | .error e => throw e

def orderedAckSend (rnd : ℕ) (now : ℚ) (msg : PyMsg) (dest q : String) (t : MsgEnum)
    (seqNo : Option ℤ) : ClientM KP ((String × ℤ) × ℕ) := do
  let s ← orderedAckSendBegin A now msg dest q t seqNo
  let c ← get
  let out ← ofExcept (AppPacket.pack A c.kp rnd now ⟨q, s, t, msg⟩)
  orderedAckSendEnd now msg dest q t s out

/-- `queue_msg`; the caller supplies the random queue id where none is given. -/
def queueMsg (rnd : ℕ) (now : ℚ) (msg : PyMsg) (dest q : String) (t : MsgEnum)
    (seqNo : Option ℤ) : ClientM KP ((String × ℤ) × ℕ) := do
  modify fun c => { c with lastSend := some now }
  orderedAckSend A rnd now msg dest q t seqNo

/-- `queue_msg_async` up to the `await` of the signature; returns the sequence number and the
section to sign. -/
def queueMsgAsyncBegin (now : ℚ) (msg : PyMsg) (dest q : String) (t : MsgEnum)
    (seqNo : Option ℤ) : ClientM KP (ℤ × Bytes) := do
  modify fun c => { c with lastSend := some now }
  let s ← orderedAckSendBegin A now msg dest q t seqNo
  let signed ← ofExcept (AppPacket.packAsyncBegin A now ⟨q, s, t, msg⟩)
  return (s, signed)

/-- `queue_msg_async` once the signature is there. -/
def queueMsgAsyncEnd (rnd : ℕ) (now : ℚ) (msg : PyMsg) (dest q : String) (t : MsgEnum) (s : ℤ)
    (signed : Bytes) : ClientM KP ((String × ℤ) × ℕ) := do
  let c ← get
  orderedAckSendEnd now msg dest q t s (AppPacket.assemble A c.kp rnd signed)

/-- Register a one-shot meta, as both probe functions do. -/
def registerOneShot (now : ℚ) (msg : PyMsg) (dest q : String) (t : MsgEnum) (s : ℤ)
    (out : Bytes) : ClientM KP ℕ := do
  let c ← get
  match c.queue t q with
  | none => throw (.keyError q)
  | some d =>
    let m := c.newMeta now dest s out true
    set (c.register t q d m msg)
    return m.appAck

/-- `if self.pipe and not self.pipe.on_close.is_set(): await self.pipe.send(buf)`, unguarded: the
packet is handed to the pipe, and `res` is what its `send` returns or raises. -/
def pipeSend (res : Except PyExc Unit) (buf : Publish) : ClientM KP Unit := do
  let c ← get
  if c.pipeAlive then
    send buf
    ofExcept res

def sendProbe (rnd : ℕ) (now : ℚ) (dest q : String) (res : Except PyExc Unit) :
    ClientM KP ((String × ℤ) × ℕ) := do
  ofExcept (checkLengths dest q)
  modify fun c => { c with lastSend := some now }
  modify fun c => c.ensureQueue .probe q
  let c ← get
  let s : ℤ := ((c.queue .probe q).map fun d => d.metas.keys.length).getD 0
  let out ← ofExcept (AppPacket.pack A c.kp rnd now ⟨q, s, .probe, .str ""⟩)
  let appAck ← registerOneShot now (.str "") dest q .probe s out
  let buf ← publish A dest out
  pipeSend res buf
  return ((q, s), appAck)

def sendProbeAck (rnd : ℕ) (now : ℚ) (dest q : String) (s : ℤ) (res : Except PyExc Unit) :
    ClientM KP Unit := do
  modify fun c => { c with lastSend := some now }
  modify fun c => c.ensureQueue .msgack q
  let c ← get
  if (c.entry .msgack q s).isSome then return
  let out ← ofExcept (AppPacket.pack A c.kp rnd now ⟨q, s, .msgack, .str "ack"⟩)
  let _ ← registerOneShot now (.str "ack") dest q .msgack s out
  let buf ← publish A dest out
  pipeSend res buf

end MQTTClient

end Sidewire
