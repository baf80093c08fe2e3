import Sidewire.Lib.Exec
import Sidewire.Pipes.Hints
import Sidewire.Router.Basic

/-! # The router's objects

Clients are objects, made one by one, and each refers to a table of received
message ids. What runs on a client is a step of the event loop over the table
that this client refers to.
-/

namespace Sidewire

/-- A router with the client objects and the id tables of its program, both told apart by number;
other clients than the router's may be among them. -/
structure RouterObjects (KP : Type) where
  kp : KP
  supports : ℕ → Bool
  clients : PyDict ℕ (PyDict String ℕ)
  /-- The router's table. -/
  recvMsgIds : ℕ
  msgHandlers : List ℕ
  /-- How many client objects there are. -/
  made : ℕ
  objects : ℕ → MQTTClient KP
  address : ℕ → BrokerClient
  /-- The table a client refers to. -/
  recvTable : ℕ → ℕ
  dispatchers : ℕ → Dispatcher
  tables : ℕ → PyDict String ℚ
  clock : ℚ
  tasks : List (Task ℕ)
  running : Option ℕ
  log : List (Invocation ℕ)

abbrev RouterM (KP : Type) := EStateM PyExc (RouterObjects KP)

/-- What may happen next. A `loop` action is one of the event loop, on one client; the others are
calls on the router, the end of `SmartPipe.connect`, and what `connect` and the idle closer do to a
client. -/
inductive ObjectAct (KP : Type)
  | loop (a : Action ℕ)
  | ensureClient (af : ℕ) (host : String) (port : ℕ)
  | addMsgHandler (h : ℕ)
  | toTry (hints : List HintBroker)
  | pipeConnected (clients : List ℕ) (msgCb : Option ℕ)
  | newClient (kp : KP) (address : BrokerClient)
  | connected (i : ℕ) (republishDuration : ℚ) (interval : PyNum) (keepAlive : ℚ)
      (ignoreAcked isNew : Bool)
  | resetSession (i : ℕ)
  | idleClosed (i : ℕ)

def ObjectAct.handler {KP : Type} : ObjectAct KP → Option ℕ
  | .addMsgHandler h => some h
  | _ => none

/-- `reset_session_state` of the client itself, which leaves the received ids alone. -/
def MQTTClient.resetSession {KP : Type} (c : MQTTClient KP) : MQTTClient KP :=
  { c with packetIds := fun _ => ∅, sentMsgIds := ∅ }

def MQTTClient.idleClosed {KP : Type} (c : MQTTClient KP) : MQTTClient KP :=
  { MQTTClient.resetSession { c with isClosed := false } with lastSend := none }

namespace RouterObjects

variable {KP : Type} (s : RouterObjects KP)

def managed : List ℕ := s.clients.entries.flatMap fun e => e.2.entries.map Prod.snd

def setObject (i : ℕ) (c : MQTTClient KP) : RouterObjects KP :=
  { s with objects := Function.update s.objects i c }

def addHandler (i h : ℕ) : RouterObjects KP :=
  s.setObject i { s.objects i with msgHandlers := (s.objects i).msgHandlers.add h }

def newClient (kp : KP) (address : BrokerClient) : RouterObjects KP :=
  { s with
    made := s.made + 1
    objects := Function.update s.objects s.made (.init kp .empty)
    address := Function.update s.address s.made address
    recvTable := Function.update s.recvTable s.made (s.made + 1)
    dispatchers := Function.update s.dispatchers s.made ⟨0, .int 0, 0, false, 0, .finished .closed⟩
    tables := Function.update s.tables (s.made + 1) ∅ }

def addClient (address : BrokerClient) (table : PyDict String ℕ) : RouterObjects KP :=
  let client := s.made
  let s := s.msgHandlers.foldl (fun s h => s.addHandler client h) (s.newClient s.kp address)
  { s with
    recvTable := Function.update s.recvTable client s.recvMsgIds
    clients := s.clients.set address.af (table.set address.host client) }

def ensureClient (af : ℕ) (host : String) (port : ℕ) : RouterM KP (Option ℕ) := do
  let s ← get
  if ¬ s.supports af then return none
  match s.clients.get? af with
  | none => throw (.keyError (toString af))
  | some table =>
    match table.get? host with
    | some existing => return some existing
    | none =>
      set (s.addClient ⟨af, host, port⟩ table)
      return some s.made

def addMsgHandler (h : ℕ) : RouterObjects KP :=
  s.managed.foldl (fun s i => s.addHandler i h) { s with msgHandlers := s.msgHandlers ++ [h] }

def seedHosts (af : ℕ) : List (String × Server) → RouterM KP Unit
  | [] => return
  | (host, server) :: hosts => do
    let _ ← ensureClient af host server.port
    seedHosts af hosts

def seedFamilies (P : Platform) (nic : List Family) (pool : BrokerPool) :
    List Family → RouterM KP Unit
  | [] => return
  | fam :: fams => do
    if fam ∈ nic then seedHosts (P.number fam) (pool.hosts fam).entries
    seedFamilies P nic pool fams

def blank (P : Platform) (nic : List Family) (kp : KP) (msgHandler : Option ℕ) (clock : ℚ) :
    RouterObjects KP where
  kp := kp
  supports af := af ∈ nic.map P.number
  clients := ((∅ : PyDict ℕ (PyDict String ℕ)).set IP4 ∅).set P.ip6 ∅
  recvMsgIds := 0
  msgHandlers := msgHandler.toList
  made := 0
  objects _ := .init kp .empty
  address _ := ⟨0, "", 0⟩
  recvTable _ := 0
  dispatchers _ := ⟨0, .int 0, 0, false, 0, .finished .closed⟩
  tables _ := ∅
  clock := clock
  tasks := []
  running := none
  log := []

/-- `Router.__init__`. -/
def construct (P : Platform) (nic : List Family) (pool : BrokerPool) (kp : KP)
    (msgHandler : Option ℕ) (clock : ℚ) : Except PyExc (RouterObjects KP) :=
  match seedFamilies P nic pool [.v4, .v6] (blank P nic kp msgHandler clock) with
  | .ok _ s => .ok s
  | .error e _ => .error e

/-- `SmartPipe.resolve_hint_clients` up to its `await`. -/
def toTry : List HintBroker → RouterM KP (List ℕ)
  | [] => return []
  | hint :: hints =>
    match hint.broker with
    | none => toTry hints
    | some b => do
      let client ← ensureClient b.af b.host b.port
      let clients ← toTry hints
      return client.toList ++ clients

/-- The end of `SmartPipe.connect`, which has these clients. -/
def pipeConnected (clients : List ℕ) (msgCb : Option ℕ) : RouterObjects KP :=
  match msgCb with
  | none => s
  | some h => clients.foldl (fun s i => s.addHandler i h) s

def actor : Action ℕ → Option ℕ
  | .tick _ => none
  | .resume k _ => (s.tasks[k]?).map Task.client
  | .recv i _ _ _ | .queueMsg i _ _ _ _ _ _ | .dequeueMsg i _ _ _ | .sendProbe i _ _ _
  | .addMsgHandler i _ | .brokerAck i _ _ | .dispatch i _ | .connectionLost i | .reconnected i
  | .close i | .cancelDispatcher i | .dropPipe i => some i

def view (table : ℕ) : Router KP ℕ where
  kp := s.kp
  clients := s.objects
  dispatchers := s.dispatchers
  recvMsgIds := s.tables table
  clock := s.clock
  tasks := s.tasks
  running := s.running
  log := s.log

def router : Router KP ℕ := s.view s.recvMsgIds

def put (table : ℕ) (r : Router KP ℕ) : RouterObjects KP :=
  { s with
    kp := r.kp
    objects := r.clients
    dispatchers := r.dispatchers
    tables := Function.update s.tables table r.recvMsgIds
    clock := r.clock
    tasks := r.tasks
    running := r.running
    log := r.log }

def loop (A : Aio KP) (a : Action ℕ) : Option (RouterObjects KP) :=
  match s.actor a with
  | some i =>
    if i < s.made then ((s.view (s.recvTable i)).step A a).map (s.put (s.recvTable i)) else none
  | none => ((s.view s.recvMsgIds).step A a).map (s.put s.recvMsgIds)

/-- `connect` returns: the session is a fresh one, and so is the dispatcher if there was none. -/
def connected (i : ℕ) (republishDuration : ℚ) (interval : PyNum) (keepAlive : ℚ)
    (ignoreAcked isNew : Bool) : RouterObjects KP :=
  let duration := max republishDuration (2 * keepAlive)
  let s := s.setObject i { (s.objects i).resetSessionState with
    pipe := some ⟨false⟩, republishDuration := duration }
  if isNew then
    { s with
      dispatchers := Function.update s.dispatchers i
        ⟨duration, interval, keepAlive, ignoreAcked, s.clock, .reconnecting⟩ }
  else s

def ifFree (t : RouterObjects KP) : Option (RouterObjects KP) :=
  if s.running = none then some t else none

def step (A : Aio KP) (s : RouterObjects KP) : ObjectAct KP → Option (RouterObjects KP)
  | .loop a => s.loop A a
  | .ensureClient af host port => s.ifFree (Exec.final (ensureClient af host port s))
  | .addMsgHandler h => s.ifFree (s.addMsgHandler h)
  | .toTry hints => s.ifFree (Exec.final (toTry hints s))
  | .pipeConnected clients msgCb =>
    if ∀ i ∈ clients, i < s.made then s.ifFree (s.pipeConnected clients msgCb) else none
  | .newClient kp address => s.ifFree (s.newClient kp address)
  | .connected i republishDuration interval keepAlive ignoreAcked isNew =>
    match (s.dispatchers i).pc with
    | .finished _ =>
      if i < s.made then
        s.ifFree (s.connected i republishDuration interval keepAlive ignoreAcked isNew)
      else none
    | _ => none
  | .resetSession i => if i < s.made then s.ifFree (s.setObject i (s.objects i).resetSession) else none
  | .idleClosed i => if i < s.made then s.ifFree (s.setObject i (s.objects i).idleClosed) else none

def registered (msgHandler : Option ℕ) (as : List (ObjectAct KP)) : List ℕ :=
  msgHandler.toList ++ as.filterMap ObjectAct.handler

end RouterObjects

end Sidewire
