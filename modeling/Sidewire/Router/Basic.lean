import Sidewire.Lib.Machine
import Sidewire.Mqtt.Dispatch

/-! # A router and its clients as one event loop

The clients of a router share one table of received message ids. Every inbound
PUBLISH is handled by a task of its own, every client has a dispatcher, and the
application calls the sending functions; control changes hands only at an
`await`. A step is what runs from one `await` to the next.
-/

namespace Sidewire

/-- Where the handling of one inbound PUBLISH is suspended, or how it ended: before it reached
the code for its message type (`dropped`), or in it. -/
inductive TaskPc
  | puback
  | verifying
  | hashing (pkt : AppPacket)
  | handling (pkt : AppPacket) (todo : List ℕ) (size : ℕ)
  | signing (pkt : AppPacket) (s : ℤ) (signed : Bytes)
  | sending
  | dropped (e : Option PyExc)
  | done
  | raised (e : PyExc)
  deriving DecidableEq

structure Task (ι : Type) where
  client : ι
  topic : String
  payload : Bytes
  pc : TaskPc
  deriving DecidableEq

structure Invocation (ι : Type) where
  task : ℕ
  handler : ℕ
  client : ι
  pkt : AppPacket
  time : ℚ
  deriving DecidableEq

structure Router (KP ι : Type) where
  kp : KP
  clients : ι → MQTTClient KP
  dispatchers : ι → Dispatcher
  recvMsgIds : PyDict String ℚ
  clock : ℚ
  tasks : List (Task ι)
  /-- The dispatcher that holds the event loop. -/
  running : Option ι
  log : List (Invocation ι)

/-- What may happen next. The `await` a task stands at returns or raises, and a `dispatch` carries
the jitter that may be drawn; a `resume` and a sending call carry the nonce a signature may need. -/
inductive Action (ι : Type)
  | tick (t : ℚ)
  | recv (i : ι) (topic : String) (payload : Bytes) (withId : Bool)
  | resume (k : ℕ) (res : Except PyExc ℕ)
  | queueMsg (i : ι) (rnd : ℕ) (msg : PyMsg) (dest q : String) (t : MsgEnum) (seqNo : Option ℤ)
  | dequeueMsg (i : ι) (q : String) (seqNo : Option ℤ) (t : MsgEnum)
  | sendProbe (i : ι) (rnd : ℕ) (dest q : String)
  | addMsgHandler (i : ι) (h : ℕ)
  | brokerAck (i : ι) (t : AckType) (pid : ℕ)
  | dispatch (i : ι) (draw : ℚ)
  | connectionLost (i : ι)
  | reconnected (i : ι)
  | close (i : ι)
  | cancelDispatcher (i : ι)
  | dropPipe (i : ι)

def Action.resumed {ι : Type} : Action ι → Option ℕ
  | .resume k _ => some k
  | _ => none

/-- The end of a task at an `await` that raises: the PUBACK's, or that of a handler or an ack, of
whose errors `async_wrap_errors` keeps some. -/
def TaskPc.failed {KP : Type} (A : Aio KP) (e : PyExc) : TaskPc → Option TaskPc
  | .puback => some (.dropped (some e))
  | .handling _ _ _ | .sending => if A.asyncWrapErrors e then none else some (.raised e)
  | _ => none

namespace Router

variable {KP ι : Type} [DecidableEq ι] (A : Aio KP)

def setClient (r : Router KP ι) (i : ι) (c : MQTTClient KP) : Router KP ι :=
  { r with clients := Function.update r.clients i c }

def setPc (r : Router KP ι) (k : ℕ) (pc : TaskPc) : Router KP ι :=
  { r with tasks := r.tasks.modify k fun t => { t with pc } }

/-- `queue_msg_async` of the ack, up to the signature. -/
def ackBegin (r : Router KP ι) (k : ℕ) (i : ι) (pkt : AppPacket) : Router KP ι :=
  match MQTTClient.catchLogged MQTTClient.logged (MQTTClient.queueMsgAsyncBegin A r.clock
      (.str "ack") pkt.srcPkHex pkt.queueIdHex .msgack (some pkt.seqNo)) (r.clients i) with
  | .ok (some (s, signed)) c => (r.setClient i c).setPc k (.signing pkt s signed)
  | .ok none c => (r.setClient i c).setPc k .done
  | .error e c => (r.setClient i c).setPc k (.raised e)

def ackEnd (r : Router KP ι) (k : ℕ) (i : ι) (rnd : ℕ) (pkt : AppPacket) (s : ℤ)
    (signed : Bytes) : Router KP ι :=
  match MQTTClient.catchLogged MQTTClient.logged (MQTTClient.queueMsgAsyncEnd A rnd r.clock
      (.str "ack") pkt.srcPkHex pkt.queueIdHex .msgack s signed) (r.clients i) with
  | .ok _ c => (r.setClient i c).setPc k .done
  | .error e c => (r.setClient i c).setPc k (.raised e)

/-- The loop over the live handler set: call the next handler and wait for it. -/
def deliver (r : Router KP ι) (k : ℕ) (i : ι) (pkt : AppPacket) (todo : List ℕ) (size : ℕ) :
    Router KP ι :=
  if (r.clients i).msgHandlers.size ≠ size then
    r.setPc k (.raised (.runtimeError "Set changed size during iteration"))
  else
    match todo with
    | [] => r.ackBegin A k i pkt
    | h :: todo =>
      { r.setPc k (.handling pkt todo size) with log := r.log ++ [⟨k, h, i, pkt, r.clock⟩] }

/-- `process_app_msg` once the hash of the message is there. -/
def dedup (r : Router KP ι) (k : ℕ) (i : ι) (pkt : AppPacket) : Router KP ι :=
  if r.recvMsgIds.contains (A.msgHash pkt.msg) then r.ackBegin A k i pkt
  else
    { r with recvMsgIds := r.recvMsgIds.set (A.msgHash pkt.msg) r.clock }.deliver A k i pkt
      (r.clients i).msgHandlers.toList (r.clients i).msgHandlers.size

def processAppMsg (r : Router KP ι) (k : ℕ) (i : ι) (pkt : AppPacket) : Router KP ι :=
  match MQTTClient.processAppMsgBegin A pkt (r.clients i) with
  | .ok true c => (r.setClient i c).setPc k .sending
  | .ok false c => (r.setClient i c).setPc k (.hashing pkt)
  | .error e c => (r.setClient i c).setPc k (.raised e)

/-- The ack's `send` may raise: what it raises comes after all that is written, and a socket's error
is logged. -/
def processAppProbe (r : Router KP ι) (k : ℕ) (i : ι) (rnd : ℕ) (pkt : AppPacket) : Router KP ι :=
  match MQTTClient.processAppProbe A rnd r.clock pkt (.ok ()) (r.clients i) with
  | .ok _ c => (r.setClient i c).setPc k .done
  | .error e c => (r.setClient i c).setPc k (.raised e)

/-- The end of `handle_publish`: the age check and the routing by message type. -/
def route (r : Router KP ι) (k : ℕ) (i : ι) (rnd : ℕ) (pkt : AppPacket) : Router KP ι :=
  if pkt.msgType = MsgEnum.msg.value then
    if (r.clients i).tooOld r.clock pkt then r.setPc k (.dropped none)
    else r.processAppMsg A k i pkt
  else if pkt.msgType = MsgEnum.msgack.value then
    (r.setClient i ((r.clients i).processAppAck pkt)).setPc k .done
  else if pkt.msgType = MsgEnum.probe.value then r.processAppProbe A k i rnd pkt
  else r.setPc k (.dropped none)

def checkTopic (r : Router KP ι) (i : ι) (topic : String) : TaskPc :=
  match A.hToB topic with
  | .error e => .dropped (some e)
  | .ok b => if b ≠ A.compactPublicKey (r.clients i).kp then .dropped none else .verifying

/-- Start handling a PUBLISH; one with a packet id is acknowledged to the broker first. -/
def handlePublish (r : Router KP ι) (i : ι) (topic : String) (payload : Bytes) (withId : Bool) :
    Router KP ι :=
  let pc : TaskPc :=
    if withId then
      if (r.clients i).pipe = none then
        .dropped (some (.attributeError "'NoneType' object has no attribute 'send'"))
      else .puback
    else r.checkTopic A i topic
  { r with tasks := r.tasks ++ [⟨i, topic, payload, pc⟩] }

def resume (r : Router KP ι) (k : ℕ) (res : Except PyExc ℕ) : Option (Router KP ι) :=
  match r.tasks[k]? with
  | none => none
  | some ⟨i, topic, payload, pc⟩ =>
    match res with
    | .error e => (pc.failed A e).map (r.setPc k)
    | .ok rnd =>
      match pc with
      | .puback => some (r.setPc k (r.checkTopic A i topic))
      | .verifying =>
        match AppPacket.unpack A payload with
        | .error e => some (r.setPc k (.dropped (some e)))
        | .ok none => some (r.setPc k (.dropped none))
        | .ok (some pkt) => some (r.route A k i rnd pkt)
      | .hashing pkt => some (r.dedup A k i pkt)
      | .handling pkt todo size => some (r.deliver A k i pkt todo size)
      | .signing pkt s signed => some (r.ackEnd A k i rnd pkt s signed)
      | .sending => some (r.setPc k .done)
      | .dropped _ => none
      | .done => none
      | .raised _ => none

def setDispatchPc (r : Router KP ι) (i : ι) (pc : DispatchPc) : Router KP ι :=
  { r with
    dispatchers := Function.update r.dispatchers i { r.dispatchers i with pc }
    running := match pc with | .walking _ _ => some i | _ => none }

def loopHead (r : Router KP ι) (i : ι) : Router KP ι :=
  r.setDispatchPc i (if (r.clients i).isClosed then .finished .closed else .reconnecting)

/-- `prune_msg_ids`, on the shared table and the client's own. -/
def pruneMsgIds (r : Router KP ι) (i : ι) (now : ℚ) : Router KP ι :=
  let c := r.clients i
  let ttl := c.republishDuration * 2
  { r with recvMsgIds := pruneTable ttl now r.recvMsgIds }.setClient i
    { c with sentMsgIds := pruneTable ttl now c.sentMsgIds }

/-- The keep-alive at the end of a round, with the pruning that goes with it. -/
def keepAlive (r : Router KP ι) (i : ι) (now : ℚ) : Router KP ι :=
  let d := r.dispatchers i
  if r.clock - d.lastPing < d.keepAlive then r.loopHead i
  else
    let r := { r with dispatchers := Function.update r.dispatchers i { d with lastPing := r.clock } }
    if (r.clients i).pipeAlive then r.setDispatchPc i (.pinging now)
    else (r.pruneMsgIds i now).loopHead i

def dispatch (r : Router KP ι) (i : ι) (draw : ℚ) : Option (Router KP ι) :=
  match (r.dispatchers i).pc with
  | .reconnecting =>
    if (r.clients i).pipeAlive || (r.clients i).isClosed then
      some (r.setDispatchPc i (.walking r.clock Gen.start))
    else none
  | .walking now g =>
    match walkStep A (r.dispatchers i) now draw g (r.clients i) with
    | none => none
    | some (pc, c) => some ((r.setClient i c).setDispatchPc i pc)
  | .publishing now g => some (r.setDispatchPc i (.walking now g))
  | .sleeping now => some (r.keepAlive i now)
  | .pinging now => some ((r.pruneMsgIds i now).loopHead i)
  | .finished _ => none

def call {α : Type} (r : Router KP ι) (i : ι) (x : ClientM KP α) : Router KP ι :=
  match x (r.clients i) with
  | .ok _ c => r.setClient i c
  | .error _ c => r.setClient i c

def act (r : Router KP ι) : Action ι → Option (Router KP ι)
  | .tick t => if r.clock ≤ t ∧ pyInt t < 256 ^ timestampLen then some { r with clock := t } else none
  | .recv i topic payload withId => some (r.handlePublish A i topic payload withId)
  | .resume k res => r.resume A k res
  | .queueMsg i rnd msg dest q t seqNo =>
    some (r.call i (MQTTClient.queueMsg A rnd r.clock msg dest q t seqNo))
  | .dequeueMsg i q seqNo t => some (r.setClient i ((r.clients i).dequeueMsg q seqNo t))
  -- what the pipe's `send` raises changes nothing but what the caller sees
  | .sendProbe i rnd dest q => some (r.call i (MQTTClient.sendProbe A rnd r.clock dest q (.ok ())))
  | .addMsgHandler i h =>
    let c := r.clients i
    some (r.setClient i { c with msgHandlers := c.msgHandlers.add h })
  | .brokerAck i t pid => some (r.setClient i ((r.clients i).handleBrokerAck t pid))
  | .dispatch i draw => r.dispatch A i draw
  | .connectionLost i =>
    let c := r.clients i
    some (r.setClient i { c with pipe := c.pipe.map fun _ => ⟨true⟩ })
  | .reconnected i =>
    let c := r.clients i
    if (r.dispatchers i).pc = .reconnecting ∧ c.pipeAlive = false ∧ c.isClosed = false then
      some (r.setClient i { c.resetSessionState with pipe := some ⟨false⟩ })
    else none
  | .close i =>
    let c := r.clients i
    some (r.setClient i { c with isClosed := true })
  | .cancelDispatcher i =>
    match (r.dispatchers i).pc with
    | .finished _ => none
    | _ => some (r.setDispatchPc i (.finished .cancelled))
  | .dropPipe i =>
    let c := r.clients i
    some (r.setClient i { c with pipe := none })

/-- One step. While a dispatcher walks its queues, nothing else runs. -/
def step (r : Router KP ι) (a : Action ι) : Option (Router KP ι) :=
  match r.running with
  | none => r.act A a
  | some j =>
    match a with
    | .dispatch i _ => if i = j then r.act A a else none
    | _ => none

structure Fresh (r : Router KP ι) : Prop where
  kp : ∀ i, (r.clients i).kp = r.kp
  msgQueues : ∀ i t, (r.clients i).msgQueues t = ∅
  unlinked : ∀ i, (r.clients i).unlinked = ∅
  queued : ∀ i, (r.clients i).queued = []
  resolved : ∀ i, (r.clients i).resolved = []
  acked : ∀ i, (r.clients i).acked = []
  sent : ∀ i, (r.clients i).sent = []
  recvMsgIds : r.recvMsgIds = ∅
  clock_nonneg : 0 ≤ r.clock
  clock_lt : pyInt r.clock < 256 ^ timestampLen
  tasks : r.tasks = []
  running : r.running = none
  log : r.log = []
  dispatchers : ∀ i, (r.dispatchers i).pc = .reconnecting

/-- A router whose clients have just connected, with the defaults of `MQTTClient.connect`. -/
def connected (kp : KP) (handlers : HandlerSet) (clock : ℚ) : Router KP ι where
  kp := kp
  clients := fun _ =>
    { MQTTClient.init kp handlers with pipe := some ⟨false⟩, republishDuration := 60 }
  dispatchers := fun _ => ⟨60, .int 2, 10, false, clock, .reconnecting⟩
  recvMsgIds := ∅
  clock := clock
  tasks := []
  running := none
  log := []

omit [DecidableEq ι] in
theorem fresh_connected (kp : KP) (handlers : HandlerSet) {clock : ℚ} (h₀ : 0 ≤ clock)
    (h₁ : pyInt clock < 256 ^ timestampLen) :
    Fresh (connected kp handlers clock : Router KP ι) :=
  ⟨fun _ => rfl, fun _ _ => rfl, fun _ => rfl, fun _ => rfl, fun _ => rfl, fun _ => rfl,
    fun _ => rfl, rfl, h₀, h₁, rfl, rfl, rfl, fun _ => rfl⟩

end Router

end Sidewire
