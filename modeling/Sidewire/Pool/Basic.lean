import Sidewire.Discovery.Walk
import Sidewire.Lib.LiveIter
import Sidewire.Session.Closing
import Sidewire.Session.Running

/-! # The client pool

The router's clients with the discovery cache, the pipes that borrow clients, and
the passes over all clients that the idle closer and `Router.close` make. They
interleave at the awaits: a pass waits for every `client.close()`, a discovery
for its `try_client` calls.
-/

namespace Sidewire

/-- Who runs a pass: the idle closer's loop or another caller of `close_idle_clients`, at the time
read at the start, or `Router.close`. -/
inductive Sweep
  | loop (now : ℚ)
  | manual (now : ℚ)
  | shutdown
  deriving DecidableEq, Repr

def Sweep.isIdle : Sweep → Bool
  | .loop _ | .manual _ => true
  | .shutdown => false

structure Cursor where
  af : ℕ
  hosts : LiveIter String
  afs : List ℕ
  deriving DecidableEq, Repr

/-- Where a pass stands. In `stopping`, `Router.close` waits for the idle closer to end; in
`closing`, the pass waits for the call of `client.close()` with that number. -/
inductive PassAt
  | stopping
  | next (c : Cursor)
  | closing (c : Cursor) (client : BrokerClient) (k : ℕ)
  | done
  | raised (exc : AwaitExc)
  deriving DecidableEq, Repr

def PassAt.isNext : PassAt → Bool
  | .next _ => true
  | _ => false

structure Pass where
  sweep : Sweep
  place : PassAt
  visited : List BrokerClient := []
  deriving DecidableEq, Repr

/-- `idle_closer_loop`: its task does not exist, sleeps, runs a pass, has returned, or has ended
with an exception. -/
inductive CloserLoop
  | off
  | sleeping
  | passing (j : ℕ)
  | returned
  | failed (exc : AwaitExc)
  deriving DecidableEq, Repr

structure CacheEntry where
  updated : ℚ
  clients : List BrokerClient
  deriving DecidableEq, Repr

/-- A call of `Router.pipe` and the pipe it makes: whether the call found an entry in the cache, and
the `try_client` calls of its discovery. -/
structure PipeCall where
  destPubHex : String
  useCache : Bool
  cached : Bool
  clients : List BrokerClient
  tries : List (BrokerClient × ℕ) := []
  connected : Bool
  closed : Bool := false
  deriving DecidableEq, Repr

/-- The router. `left` tells of each client whether the idle closer has closed it since a connect
of it last succeeded. -/
structure Pool where
  supports : ℕ → Bool
  clients : ClientTable
  session : BrokerClient → Session
  protectedClients : List BrokerClient
  cache : PyDict String CacheEntry := ∅
  pipes : List PipeCall := []
  passes : List Pass := []
  loop : CloserLoop := .off
  running : Option ℕ := none
  clock : ℚ
  left : BrokerClient → Bool := fun _ => false

/-- What may happen next. `advance` takes a pass to the next client, `goesOn` ends an await of the
`close` a pass waits for, and `session` ends one of another call, of a dispatcher or of the packet
reader. -/
inductive PoolAct
  | tick (t : ℚ)
  | ensureClient (af : ℕ) (host : String) (port : ℕ)
  | session (client : BrokerClient) (a : Session.Act)
  | pipe (destPubHex : String) (useCache : Bool) (expiry : ℚ)
  | tryClient (p : ℕ) (client : BrokerClient)
  | connected (p : ℕ) (clients : List BrokerClient)
  | send (p : ℕ)
  | closePipe (p : ℕ)
  | startLoop
  | wake
  | closeIdleClients
  | close
  | stopped (j : ℕ) (closedFirst : Bool)
  | advance (j : ℕ)
  | goesOn (j : ℕ) (r : Reply) (atOnce : Bool)
  deriving DecidableEq, Repr

namespace Pool

variable (pipelined : Bool) (P : Pool)

def Has (client : BrokerClient) : Prop :=
  ∃ table ∈ P.clients.get? client.af, table.get? client.host = some client

instance (client : BrokerClient) : Decidable (P.Has client) :=
  inferInstanceAs (Decidable (∃ table ∈ P.clients.get? client.af, _))

def setSession (client : BrokerClient) (s : Session) : Pool :=
  { P with session := Function.update P.session client s }

def evictClientFromCache (client : BrokerClient) : Pool :=
  { P with cache := P.cache.filter fun _ entry => client ∉ entry.clients }

def cacheClients (pubKeyHex : String) (clients : List BrokerClient) : Pool :=
  { P with cache := P.cache.set pubKeyHex ⟨P.clock, clients⟩ }

def enter : List ℕ → PassAt
  | [] => .done
  | af :: afs =>
    match P.clients.get? af with
    | some table => .next ⟨af, table.iter, afs⟩
    | none => .raised (.other (.keyError (toString af)))

/-- What the end of a pass does to the loop that runs it: the loop catches two kinds of errors and
returns on a cancellation. -/
def loopAfter (j : ℕ) (place : PassAt) : CloserLoop :=
  if P.loop = .passing j then
    match place with
    | .done => .sleeping
    | .raised exc =>
      if exc = .osError ∨ exc = .connectionError then .sleeping
      else if exc = .cancelledError then .returned
      else .failed exc
    | _ => P.loop
  else P.loop

/-- The pass comes to another place. From one client to the next it does not wait. -/
def setPlace (j : ℕ) (place : PassAt) : Pool :=
  { P with
    passes := P.passes.modify j fun pass => { pass with place }
    running := if place.isNext then some j else none
    loop := P.loopAfter j place }

def visit (j : ℕ) (client : BrokerClient) : Pool :=
  { P with
    passes := P.passes.modify j fun pass => { pass with visited := pass.visited ++ [client] } }

def begin (sweep : Sweep) : Pool :=
  ({ P with passes := P.passes ++ [⟨sweep, .stopping, []⟩] } : Pool).setPlace P.passes.length
    (P.enter P.clients.keys)

/-- What a pass does with a client, up to the first await of its `close`. -/
def sweepClient (sweep : Sweep) (client : BrokerClient) : Session :=
  let s := P.session client
  match sweep with
  | .loop now | .manual now => if client ∈ P.protectedClients then s else s.idleClose now
  | .shutdown => { s with isClosed := false }.close .plain

def leave (sweep : Sweep) (client : BrokerClient) : Pool :=
  if sweep.isIdle then
    { P.evictClientFromCache client with left := Function.update P.left client true }
  else P

/-- The body of the loops for one client. A `close` that finds the client closed returns at
once. -/
def sweepStep (j : ℕ) (sweep : Sweep) (c : Cursor) (client : BrokerClient) : Pool :=
  let k := (P.session client).calls.length
  let s := P.sweepClient sweep client
  let P := (P.setSession client s).visit j client
  match s.calls[k]? with
  | none => P.setPlace j (.next c)
  | some (.over _) => (P.evictClientFromCache client).setPlace j (.next c)
  | some _ => P.setPlace j (.closing c client k)

/-- The pass takes the next key of the dictionary it iterates over. -/
def advance (j : ℕ) : Option Pool :=
  match P.passes[j]? with
  | some ⟨sweep, .next ⟨af, ⟨size, todo⟩, afs⟩, _⟩ =>
    match P.clients.get? af with
    | none => none
    | some table =>
      if table.keys.length ≠ size then
        some (P.setPlace j
          (.raised (.other (.runtimeError "dictionary changed size during iteration"))))
      else
        match todo with
        | [] => some (P.setPlace j (P.enter afs))
        | host :: todo =>
          match table.get? host with
          | none => none
          | some client => some (P.sweepStep j sweep ⟨af, ⟨size, todo⟩, afs⟩ client)
  | _ => none

/-- The `close` that a pass waits for has come to its end. An idle pass catches the errors of the
network. -/
def closeEnded (j : ℕ) (sweep : Sweep) (c : Cursor) (client : BrokerClient) (r : CallResult) :
    Pool :=
  match r with
  | .failed exc =>
    if sweep.isIdle ∧ (exc = .osError ∨ exc = .connectionError) then
      (P.leave sweep client).setPlace j (.next c)
    else P.setPlace j (.raised exc)
  | _ => (P.leave sweep client).setPlace j (.next c)

/-- An await of the `close` that a pass waits for ends. -/
def goesOn (j : ℕ) (r : Reply) (atOnce : Bool) : Option Pool :=
  match P.passes[j]? with
  | some ⟨sweep, .closing c client k, _⟩ =>
    if ((P.session client).calls[k]?).any Session.isClosing then
      ((P.session client).resumeCall pipelined k r atOnce).map fun s =>
        let P := P.setSession client s
        match s.calls[k]? with
        | some (.over r) => P.closeEnded j sweep c client r
        | _ => P
    else none
  | _ => none

/-- `Router.close`: the idle closer is stopped first, if its task is there and not done. -/
def close : Pool :=
  match P.loop with
  | .sleeping | .passing _ => { P with passes := P.passes ++ [⟨.shutdown, .stopping, []⟩] }
  | _ => ({ P with loop := .off } : Pool).begin .shutdown

/-- The idle closer's task ends after its cancellation, which comes to the `close` it waits for;
`Router.close` goes on. -/
def stopped (j : ℕ) (closedFirst : Bool) : Option Pool :=
  match P.passes[j]? with
  | some ⟨.shutdown, .stopping, _⟩ =>
    match P.loop with
    | .passing i =>
      match P.goesOn pipelined i (.raised .cancelledError closedFirst) false with
      | some Q => some (({ Q with loop := .off } : Pool).setPlace j (Q.enter Q.clients.keys))
      | none => none
    | _ => some (({ P with loop := .off } : Pool).setPlace j (P.enter P.clients.keys))
  | _ => none

/-- `Router.pipe` up to its first await: an entry of the cache that is not too old gives the
clients, and without clients there is a discovery. -/
def pipe (destPubHex : String) (useCache : Bool) (expiry : ℚ) : Pool :=
  let entry := (P.cache.get? destPubHex).filter fun entry =>
    useCache && decide (P.clock - entry.updated < expiry)
  let clients := (entry.map CacheEntry.clients).getD []
  { P with pipes := P.pipes ++
      [{ destPubHex, useCache, cached := entry.isSome, clients, connected := clients ≠ [] }] }

/-- The discovery of a pipe calls `try_client`. -/
def tryClient (p : ℕ) (client : BrokerClient) : Option Pool :=
  match P.pipes[p]? with
  | some pipe =>
    if pipe.connected ∨ ¬ P.Has client then none
    else
      let s := P.session client
      some { P.setSession client (s.start (s.tryClient P.clock)) with
        pipes := P.pipes.set p { pipe with tries := pipe.tries ++ [(client, s.calls.length)] } }
  | none => none

/-- The call of `try_client` has returned the client. -/
def Tried (t : BrokerClient × ℕ) : Prop := (P.session t.1).calls[t.2]? = some (.over .client)

instance (t : BrokerClient × ℕ) : Decidable (P.Tried t) := inferInstanceAs (Decidable (_ = _))

def connected (p : ℕ) (clients : List BrokerClient) : Option Pool :=
  match P.pipes[p]? with
  | some pipe =>
    if ¬ pipe.connected ∧ ∀ client ∈ clients, ∃ t ∈ pipe.tries, t.1 = client ∧ P.Tried t then
      let P := { P with pipes := P.pipes.set p { pipe with clients, connected := true } }
      some (if pipe.useCache ∧ ¬ pipe.cached then P.cacheClients pipe.destPubHex clients else P)
    else none
  | none => none

/-- `SmartPipe.send` queues the message on every client. -/
def send (p : ℕ) : Option Pool :=
  match P.pipes[p]? with
  | some pipe =>
    if pipe.connected then
      some { P with session := fun client =>
        if client ∈ pipe.clients then { P.session client with lastSend := some P.clock }
        else P.session client }
    else none
  | none => none

/-- `SmartPipe.close` evicts the pipe's clients from the cache and leaves them open. -/
def closePipe (p : ℕ) : Option Pool :=
  match P.pipes[p]? with
  | some pipe =>
    if pipe.connected then
      some (pipe.clients.foldl evictClientFromCache
        { P with pipes := P.pipes.set p { pipe with closed := true } })
    else none
  | none => none

def connects (s t : Session) : Session.Act → Bool
  | .reply k _ _ | .timeout k _ _ =>
    match s.calls[k]?, t.calls[k]? with
    | some (.connect _ _ _), some (.over .client) => true
    | some (.connect _ _ _), some (.over (.pipe _)) => true
    | _, _ => false
  | _ => false

def unwatched (s : Session) : Session.Act → Bool
  | .reply k _ _ | .timeout k _ _ => !(s.calls[k]?).any Session.isClosing
  | .dispatch _ _ _ | .lost _ | .chunk _ _ | .resume => true
  | _ => false

def sessionStep (client : BrokerClient) (a : Session.Act) : Option Pool :=
  if unwatched (P.session client) a ∧ P.Has client then
    ((P.session client).step pipelined a).map fun t =>
      { P.setSession client t with
        left :=
          if connects (P.session client) t a then Function.update P.left client false
          else P.left }
  else none

def ensureClient (af : ℕ) (host : String) (port : ℕ) : Pool :=
  match Sidewire.ensureClient P.supports P.clients af host port with
  | .ok (clients, some client) =>
    if clients = P.clients then P
    else { P with clients, session := Function.update P.session client {} }
  | _ => P

def act : PoolAct → Option Pool
  | .tick t => if P.clock ≤ t then some { P with clock := t } else none
  | .ensureClient af host port => some (P.ensureClient af host port)
  | .session client a => P.sessionStep pipelined client a
  | .pipe destPubHex useCache expiry => some (P.pipe destPubHex useCache expiry)
  | .tryClient p client => P.tryClient p client
  | .connected p clients => P.connected p clients
  | .send p => P.send p
  | .closePipe p => P.closePipe p
  | .startLoop =>
    match P.loop with
    | .sleeping | .passing _ => some P
    | _ => some { P with loop := .sleeping }
  | .wake =>
    if P.loop = .sleeping then
      some (({ P with loop := .passing P.passes.length } : Pool).begin (.loop P.clock))
    else none
  | .closeIdleClients => some (P.begin (.manual P.clock))
  | .close => some P.close
  | .stopped j closedFirst => P.stopped pipelined j closedFirst
  | .advance j => if P.running = some j then P.advance j else none
  | .goesOn j r atOnce => P.goesOn pipelined j r atOnce

/-- One step. While a pass goes from one client to the next, nothing else runs. -/
def step (a : PoolAct) : Option Pool :=
  match P.running with
  | none => P.act pipelined a
  | some j => if a = .advance j then P.advance j else none

def connectedSession : Session where
  conn := { pipe := some 0, pipes := [⟨true, true⟩] }
  dispatcherTask := some 0
  dispatchers := [⟨.waiting, .none⟩]
  lastConnect := some 100

def pooled (hosts : List String) : Pool where
  supports _ := true
  clients := ((∅ : ClientTable).set 2 (hosts.foldl (fun table host =>
    table.set host ⟨2, host, 1883⟩) ∅)).set 10 ∅
  session _ := connectedSession
  protectedClients := []
  loop := .sleeping
  clock := 700

/-- The dispatcher of the client ends, and pass 0 goes on to the end of its `close`. -/
def closesClient (client : BrokerClient) : List PoolAct :=
  [.session client (.dispatch 0 (.raised .cancelledError false) false), .goesOn 0 .done false,
    .goesOn 0 .sent true, .goesOn 0 .done false]

end Pool

end Sidewire
