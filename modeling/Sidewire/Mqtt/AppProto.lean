import Sidewire.Mqtt.OrderedSend

/-! # Inbound application packets

What `process_app_msg`, `process_app_probe` and `process_app_ack` do to one
client between two `await`s. The deduplication table is shared by the clients of
a router and is therefore not part of this level.
-/

namespace Sidewire

namespace MQTTClient

variable {KP : Type} (A : Aio KP)

/-- The part of `process_app_msg` that forgets acks older than the arriving message. -/
def dropOldAcks (c : MQTTClient KP) (q : String) (s : ℤ) : MQTTClient KP :=
  match c.queue .msgack q with
  | none => c
  | some d => c.putQueue .msgack q { d with metas := d.metas.filter fun s' _ => ¬ s' < s }

/-- `process_app_msg` up to its first `await`. The result tells whether an ack queued earlier
for this sequence number was sent again, which ends the processing. -/
def processAppMsgBegin (pkt : AppPacket) : ClientM KP Bool := do
  modify fun c => c.dropOldAcks pkt.queueIdHex pkt.seqNo
  let c ← get
  match c.entry .msgack pkt.queueIdHex pkt.seqNo with
  | none => return false
  | some m =>
    let out ← publish A m.destPkHex m.out
    let c ← get
    if c.pipe = none then throw (.attributeError "'NoneType' object has no attribute 'send'")
    send out
    return true

/-- `del queue[s]`, and of the queue itself once it is empty. -/
def deleteEntry (c : MQTTClient KP) (t : MsgEnum) (q : String) (s : ℤ) : MQTTClient KP :=
  match c.queue t q with
  | none => c
  | some d =>
    let d' : Queue := { d with metas := d.metas.erase s }
    if d'.metas.keys = [] then c.unlinkQueue t q d' else c.putQueue t q d'

/-- One round of the loop of `process_app_ack`; `none` is its `continue`. -/
def ackIn (c : MQTTClient KP) (pkt : AppPacket) (t : MsgEnum) : Option (MQTTClient KP) :=
  match c.entry t pkt.queueIdHex pkt.seqNo with
  | none => none
  | some m =>
    if m.destPkHex ≠ pkt.srcPkHex then none
    else if c.done m then some c
    else
      let c' := { c.setResult m with acked := m.appAck :: c.acked }
      if m.probeOneShot then some (c'.deleteEntry t pkt.queueIdHex pkt.seqNo) else some c'

def processAppAck (c : MQTTClient KP) (pkt : AppPacket) : MQTTClient KP :=
  (c.ackIn pkt .msg).getD ((c.ackIn pkt .probe).getD c)

/-- The exceptions `process_app_msg` logs instead of passing on. -/
def logged : PyExc → Bool
  | .valueError _ => true
  | .keyError _ => true
  | _ => false

/-- Those `process_app_probe` logs. -/
def loggedProbe : PyExc → Bool
  | .osError _ => true
  | e => logged e

def catchLogged {α : Type} (caught : PyExc → Bool) (x : ClientM KP α) : ClientM KP (Option α) :=
  fun c =>
    match x c with
    | .ok a c' => .ok (some a) c'
    | .error e c' => if caught e then .ok none c' else .error e c'

def processAppProbe (rnd : ℕ) (now : ℚ) (pkt : AppPacket) (res : Except PyExc Unit) :
    ClientM KP Unit := do
  let c ← get
  if (c.getMsgFromQueue pkt.queueIdHex pkt.seqNo .msgack).isSome then return
  let _ ← catchLogged loggedProbe
    (sendProbeAck A rnd now pkt.srcPkHex pkt.queueIdHex pkt.seqNo res)

/-- The age check of `handle_publish`. -/
def tooOld (c : MQTTClient KP) (now : ℚ) (pkt : AppPacket) : Bool :=
  decide (2 * c.republishDuration < ((pyInt now - pkt.timestamp : ℤ) : ℚ))

end MQTTClient

end Sidewire
