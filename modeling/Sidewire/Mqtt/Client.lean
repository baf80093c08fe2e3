import Sidewire.Lib.PyDict
import Sidewire.Mqtt.AppPacket

/-! # The client and its tables

One `MQTTClient` with its message queues, packet ids and identities. Queue
dictionaries are Python objects: a suspended generator may still hold one after
it has left the table, so each carries an identity and an unlinked one stays
reachable. History fields record what was queued, acknowledged and sent; no
function of the code reads them.
-/

namespace Sidewire

structure Meta where
  appAck : ℕ
  destPkHex : String
  seqNo : ℤ
  out : Bytes
  updated : ℚ
  created : ℚ
  attempts : ℕ
  probeOneShot : Bool
  deriving DecidableEq

/-- The metas of one queue id, as a dictionary object with an identity. -/
structure Queue where
  ident : ℕ
  metas : PyDict ℤ Meta

structure HandlerSet where
  toList : List ℕ
  nodup : toList.Nodup

namespace HandlerSet

def empty : HandlerSet := ⟨[], List.nodup_nil⟩

def add (s : HandlerSet) (h : ℕ) : HandlerSet :=
  if hm : h ∈ s.toList then s
  else ⟨s.toList ++ [h], List.Nodup.append s.nodup (List.nodup_singleton h) (by simpa using hm)⟩

def size (s : HandlerSet) : ℕ := s.toList.length

end HandlerSet

/-- The connection: all the code asks of it is whether it was closed. -/
structure Pipe where
  onClose : Bool
  deriving DecidableEq

structure Publish where
  topic : String
  payload : Bytes
  packetId : ℕ
  deriving DecidableEq

/-- History: a message at the moment it entered `msg_queues`. -/
structure Queued where
  msgType : MsgEnum
  queueIdHex : String
  seqNo : ℤ
  destPkHex : String
  msg : PyMsg
  out : Bytes
  appAck : ℕ
  deriving DecidableEq

structure MQTTClient (KP : Type) where
  kp : KP
  msgHandlers : HandlerSet
  msgQueues : MsgEnum → PyDict String Queue
  sentMsgIds : PyDict String ℚ
  packetIds : AckType → PyDict ℕ ℕ
  packetId : ℕ
  pipe : Option Pipe
  isClosed : Bool
  republishDuration : ℚ
  lastSend : Option ℚ
  /-- Futures whose result is set. -/
  resolved : List ℕ
  /-- Queue objects that have left the table. -/
  unlinked : PyDict ℕ (PyDict ℤ Meta)
  /-- The next unused identity, of a queue object or of a future. -/
  nextObj : ℕ
  queued : List Queued
  acked : List ℕ
  sent : List Publish

/-- Code that runs on a client and may raise; what it did before raising stays done. -/
abbrev ClientM (KP : Type) := EStateM PyExc (MQTTClient KP)

namespace MQTTClient

variable {KP : Type}

/-- `MQTTClient.__init__`. -/
def init (kp : KP) (handlers : HandlerSet) : MQTTClient KP where
  kp := kp
  msgHandlers := handlers
  msgQueues := fun _ => ∅
  sentMsgIds := ∅
  packetIds := fun _ => ∅
  packetId := 0
  pipe := none
  isClosed := false
  republishDuration := 0
  lastSend := none
  resolved := []
  unlinked := ∅
  nextObj := 0
  queued := []
  acked := []
  sent := []

def pipeAlive (c : MQTTClient KP) : Bool :=
  match c.pipe with
  | some p => !p.onClose
  | none => false

def inFlight (c : MQTTClient KP) (pid : ℕ) : Bool :=
  (c.packetIds .suback).contains pid || (c.packetIds .puback).contains pid

/-- The loop of `get_packet_id`, with the rounds it still has. -/
def getPacketIdLoop : ℕ → ClientM KP ℕ
  | 0 => throw (.assertionError "All 65535 MQTT packet IDs are in-flight")
  | n + 1 => do
    modify fun c => { c with packetId := c.packetId % 65535 + 1 }
    let c ← get
    if c.inFlight c.packetId then getPacketIdLoop n else return c.packetId

def getPacketId : ClientM KP ℕ := getPacketIdLoop 65535

def packetAckFuture (t : AckType) : ClientM KP ℕ := do
  let pid ← getPacketId
  modify fun c =>
    { c with
      packetIds := Function.update c.packetIds t ((c.packetIds t).set pid c.nextObj)
      nextObj := c.nextObj + 1 }
  return pid

def publish (A : Aio KP) (topic : String) (payload : Bytes) : ClientM KP Publish := do
  if ¬ A.isAscii topic then throw (.valueError "topic must be ASCII")
  let pid ← packetAckFuture .puback
  return ⟨topic, payload, pid⟩

/-- `handle_broker_ack`: free the packet id an ack names. -/
def handleBrokerAck (c : MQTTClient KP) (t : AckType) (pid : ℕ) : MQTTClient KP :=
  { c with packetIds := Function.update c.packetIds t ((c.packetIds t).erase pid) }

/-- `reset_session_state` of `mqtt.utils`. -/
def resetSessionState (c : MQTTClient KP) : MQTTClient KP :=
  { c with packetIds := fun _ => ∅, packetId := 0 }

def send (p : Publish) : ClientM KP Unit := modify fun c => { c with sent := c.sent ++ [p] }

/-- `safe_pipe_send`: nothing happens unless the pipe is open. -/
def safePipeSend (p : Publish) : ClientM KP Unit := do
  let c ← get
  if c.pipeAlive then send p

def queue (c : MQTTClient KP) (t : MsgEnum) (q : String) : Option Queue := (c.msgQueues t).get? q

def entry (c : MQTTClient KP) (t : MsgEnum) (q : String) (s : ℤ) : Option Meta :=
  (c.queue t q).bind fun d => d.metas.get? s

def putQueue (c : MQTTClient KP) (t : MsgEnum) (q : String) (d : Queue) : MQTTClient KP :=
  { c with msgQueues := Function.update c.msgQueues t ((c.msgQueues t).set q d) }

/-- Delete a queue from the table; the object lives on for whoever still holds it. -/
def unlinkQueue (c : MQTTClient KP) (t : MsgEnum) (q : String) (d : Queue) : MQTTClient KP :=
  { c with
    msgQueues := Function.update c.msgQueues t ((c.msgQueues t).erase q)
    unlinked := c.unlinked.set d.ident d.metas }

/-- The queue object with the given identity, in the table under `q` or unlinked. -/
def queueObject (c : MQTTClient KP) (t : MsgEnum) (q : String) (ident : ℕ) : PyDict ℤ Meta :=
  match c.queue t q with
  | some d => if d.ident = ident then d.metas else (c.unlinked.get? ident).getD ∅
  | none => (c.unlinked.get? ident).getD ∅

/-- Write a meta back into the queue object it was read from. -/
def putMeta (c : MQTTClient KP) (t : MsgEnum) (q : String) (ident : ℕ) (s : ℤ) (m : Meta) :
    MQTTClient KP :=
  match c.queue t q with
  | some d =>
    if d.ident = ident then c.putQueue t q { d with metas := d.metas.set s m }
    else { c with unlinked := c.unlinked.set ident (((c.unlinked.get? ident).getD ∅).set s m) }
  | none => { c with unlinked := c.unlinked.set ident (((c.unlinked.get? ident).getD ∅).set s m) }

def done (c : MQTTClient KP) (m : Meta) : Bool := m.appAck ∈ c.resolved

def setResult (c : MQTTClient KP) (m : Meta) : MQTTClient KP :=
  { c with resolved := m.appAck :: c.resolved }

/-- `dequeue_msg`: drop the whole queue, or mark one message as acknowledged. -/
def dequeueMsg (c : MQTTClient KP) (q : String) (seqNo : Option ℤ) (t : MsgEnum) : MQTTClient KP :=
  match c.queue t q with
  | none => c
  | some d =>
    match seqNo with
    | none => c.unlinkQueue t q d
    | some s =>
      match d.metas.get? s with
      | none => c
      | some m => if c.done m then c else c.setResult m

/-- `get_msg_from_queue`. -/
def getMsgFromQueue (c : MQTTClient KP) (q : String) (s : ℤ) (t : MsgEnum) : Option Meta :=
  c.entry t q s

end MQTTClient

end Sidewire
