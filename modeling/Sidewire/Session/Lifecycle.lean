import Sidewire.Session.Handshake

/-! # The life of a client

The calls of `connect`, `try_client` and `close` on one client, its dispatcher
tasks with their reconnect loops, and what the network does, interleaved at the
awaits. Every call and every dispatcher stands at one await; a step ends one of
these awaits, starts a call, or is the network's.
-/

namespace Sidewire

/-- What a call comes to. `connect` returns `self.pipe`, `try_client` the client or nothing. -/
inductive CallResult
  | pipe (p : Option ℕ)
  | client
  | noClient
  | closed
  | failed (exc : AwaitExc)
  deriving DecidableEq, Repr

/-- Who calls `close`: the idle closer goes on with the client afterwards. -/
inductive Closer | plain | idle
  deriving DecidableEq, Repr

/-- A call and the await it stands at. `tried` is the time at which `try_client` called
`connect`. -/
inductive ClientCall
  | entering (now : ℚ)
  | connect (tried : Option ℚ) (m : MqttConnect) (timedOut : Bool)
  | cancelling (closer : Closer) (d : Option ℕ)
  | disconnecting (closer : Closer)
  | closingPipe (closer : Closer) (p : ℕ)
  | over (r : CallResult)
  deriving DecidableEq, Repr

/-- Where a dispatcher stands. In `waiting` it sleeps or publishes, the others are the awaits of
its reconnect loop. -/
inductive DispatcherAt
  | notStarted
  | waiting
  | closingOld (p : ℕ)
  | connecting (m : MqttConnect)
  | backoff
  | finished
  deriving DecidableEq, Repr

inductive Cancel | none | requested | delivered
  deriving DecidableEq, Repr

structure DispatcherTask where
  stage : DispatcherAt := .notStarted
  cancel : Cancel := .none
  deriving DecidableEq, Repr

structure Session where
  isClosed : Bool := false
  conn : Connection := {}
  dispatcherTask : Option ℕ := none
  dispatchers : List DispatcherTask := []
  calls : List ClientCall := []
  lastConnect : Option ℚ := none
  lastSend : Option ℚ := none
  deriving DecidableEq, Repr

namespace Session

def retryDuration : ℚ := 1200

def idleClientTimeout : ℚ := 600

/-- `self.dispatcher_task`, where there is one. -/
def task (s : Session) : Option DispatcherTask := s.dispatcherTask.bind fun d => s.dispatchers[d]?

/-- `self.dispatcher_task and not self.dispatcher_task.done()`. -/
def hasRunningTask (s : Session) : Bool := s.task.any fun x => x.stage ≠ .finished

def start (s : Session) (call : ClientCall) : Session := { s with calls := s.calls ++ [call] }

def setCall (s : Session) (k : ℕ) (call : ClientCall) : Session :=
  { s with calls := s.calls.set k call }

/-- `connect()` up to its first await; `tried` is set where `try_client` calls it. -/
def connect (s : Session) (tried : Option ℚ) : ClientCall :=
  if s.hasRunningTask then .over (if tried.isSome then .client else .pipe s.conn.pipe)
  else .connect tried .connecting false

/-- `try_client` up to its first await. -/
def tryClient (s : Session) (now : ℚ) : ClientCall :=
  if s.dispatcherTask ≠ none then .over .client
  else if ∃ last ∈ s.lastConnect, now - last < retryDuration then .over .noClient
  else .entering now

def createDispatcher (s : Session) : Session :=
  { s with
    dispatcherTask := some s.dispatchers.length
    dispatchers := s.dispatchers ++ [{}] }

/-- `connect()` and the `try_client` around it after the handshake has returned. -/
def connected (s : Session) (tried : Option ℚ) (p : ℕ) : Session × CallResult :=
  (if s.dispatcherTask = none then s.createDispatcher else s,
    if tried.isSome then .client else .pipe (some p))

def connectFailed (s : Session) (tried : Option ℚ) (exc : AwaitExc) (timedOut : Bool) :
    Session × CallResult :=
  let exc := if timedOut ∧ exc = .cancelledError then .connectionError else exc
  match tried with
  | none => (s, .failed exc)
  | some now =>
    if exc.isNetwork then ({ s with lastConnect := some now }, .noClient) else (s, .failed exc)

/-- The await of a handshake in call `k` ends. -/
def resumeConnect (pipelined : Bool) (s : Session) (k : ℕ) (tried : Option ℚ) (m : MqttConnect)
    (timedOut : Bool) (r : Reply) (atOnce : Bool) : Option Session :=
  match m.resume pipelined s.conn r atOnce with
  | none => none
  | some (conn, .returned p) =>
    let (s, result) := connected { s with conn } tried p
    some (s.setCall k (.over result))
  | some (conn, .raised exc) =>
    let (s, result) := connectFailed { s with conn } tried exc timedOut
    some (s.setCall k (.over result))
  | some (conn, m) => some ({ s with conn }.setCall k (.connect tried m timedOut))

def cancelTask (s : Session) : Session :=
  match s.dispatcherTask with
  | none => s
  | some d =>
    { s with dispatchers := s.dispatchers.modify d fun x =>
        if x.stage = .finished ∨ x.cancel ≠ .none then x else { x with cancel := .requested } }

/-- The idle closer after `client.close()`: the client is made available again. -/
def released (s : Session) : Closer → Session
  | .plain => s
  | .idle => { s with isClosed := false, lastSend := none }

/-- `close()` up to its first await. -/
def close (s : Session) (closer : Closer) : Session :=
  if s.isClosed then (s.released closer).start (.over .closed)
  else ({ s with isClosed := true }.cancelTask).start (.cancelling closer s.dispatcherTask)

/-- `close()` ends with an exception; the idle closer catches those of the network. -/
def closeFailed (s : Session) (k : ℕ) (closer : Closer) (exc : AwaitExc) : Session :=
  (if exc = .osError ∨ exc = .connectionError then s.released closer else s).setCall k
    (.over (.failed exc))

def closePipe (s : Session) (k : ℕ) (closer : Closer) (atOnce : Bool) : Session :=
  match s.conn.pipe with
  | none => s.closeFailed k closer
      (.other (.attributeError "'NoneType' object has no attribute 'close'"))
  | some p => { s with conn := s.conn.closeIf atOnce p }.setCall k (.closingPipe closer p)

/-- An await of call `k` ends. -/
def resumeCall (pipelined : Bool) (s : Session) (k : ℕ) (r : Reply) (atOnce : Bool) :
    Option Session :=
  match s.calls[k]? with
  | some (.entering now) => if r = .done then some (s.setCall k (s.connect (some now))) else none
  | some (.connect tried m timedOut) => s.resumeConnect pipelined k tried m timedOut r atOnce
  | some (.cancelling closer d) =>
    match r with
    | .done =>
      -- `cancel_task` waits for the task to end
      if ∃ x ∈ d.bind fun d => s.dispatchers[d]?, x.stage ≠ .finished then none
      else
        let s := { s with dispatcherTask := none }
        match s.conn.pipe with
        | none => some ((s.released closer).setCall k (.over .closed))
        | some _ => some (s.setCall k (.disconnecting closer))
    | .raised .cancelledError _ => some (s.closeFailed k closer .cancelledError)
    | _ => none
  | some (.disconnecting closer) =>
    match r with
    | .sent => some (s.closePipe k closer atOnce)
    | .raised exc _ =>
      if exc = .cancelledError then some (s.closeFailed k closer exc)
      else some (s.closePipe k closer atOnce)
    | _ => none
  | some (.closingPipe closer p) =>
    match r with
    | .done =>
      some (({ s with conn := { s.conn.close p with pipe := none } }.released closer).setCall k
        (.over .closed))
    | .raised exc closedFirst =>
      some ({ s with conn := s.conn.closeIf closedFirst p }.closeFailed k closer exc)
    | _ => none
  | some (.over _) => none
  | none => none

/-- The timeout around a handshake runs out: the handshake is cancelled at its await. -/
def timeout (pipelined : Bool) (s : Session) (k : ℕ) (closedFirst atOnce : Bool) :
    Option Session :=
  match s.calls[k]? with
  | some (.connect tried m false) =>
    s.resumeConnect pipelined k tried m true (.raised .cancelledError closedFirst) atOnce
  | _ => none

/-- The top of the reconnect loop: nothing to do for a closed client or a live pipe, otherwise the
old pipe is closed, the session state reset and a new pipe connected. -/
def reconnectLoop (isClosed : Bool) (c : Connection) : Connection × DispatcherAt :=
  if isClosed then (c, .waiting)
  else
    match c.pipe with
    | none => ({ c with buf := [] }, .connecting .connecting)
    | some p => if c.IsOpen p then (c, .waiting) else (c, .closingOld p)

def dispatcherLoop (isClosed : Bool) (c : Connection) : Connection × DispatcherAt :=
  if isClosed then (c, .finished) else reconnectLoop isClosed c

/-- An exception out of the reconnect loop: the dispatcher goes on after one of the network, and
ends with any other. -/
def reconnectFailed (c : Connection) (exc : AwaitExc) : Connection × DispatcherAt :=
  (c, if exc.isNetwork then .waiting else .finished)

def resumeDispatcher (pipelined isClosed : Bool) (c : Connection) (x : DispatcherAt) (r : Reply)
    (atOnce : Bool) : Option (Connection × DispatcherAt) :=
  match x with
  | .notStarted => if r = .done then some (dispatcherLoop isClosed c) else none
  | .waiting =>
    match r with
    | .sent => some (c, .waiting)
    | .done => some (dispatcherLoop isClosed c)
    | .raised _ _ => some (c, .finished)
    | _ => none
  | .closingOld p =>
    match r with
    | .done => some ({ c.close p with buf := [] }, .connecting .connecting)
    | .raised exc _ => some (reconnectFailed c exc)
    | _ => none
  | .connecting m =>
    match m.resume pipelined c r atOnce with
    | none => none
    | some (c, .returned _) => some (c, .waiting)
    | some (c, .raised exc) => some (c, if exc.isNetwork then .backoff else .finished)
    | some (c, m) => some (c, .connecting m)
  | .backoff =>
    match r with
    | .done => some (reconnectLoop isClosed c)
    | .raised exc _ => some (reconnectFailed c exc)
    | _ => none
  | .finished => none

/-- A step of dispatcher `d`. A task that is cancelled before it has started never runs, and one
that is cancelled at an await gets the cancellation there. -/
def dispatch (pipelined : Bool) (s : Session) (d : ℕ) (r : Reply) (atOnce : Bool) :
    Option Session :=
  match s.dispatchers[d]? with
  | none => none
  | some x =>
    let set (x : DispatcherTask) : List DispatcherTask := s.dispatchers.set d x
    match x.cancel with
    | .requested =>
      if x.stage = .notStarted then
        some { s with dispatchers := set { stage := .finished, cancel := .delivered } }
      else
        match r with
        | .raised .cancelledError closedFirst =>
          (resumeDispatcher pipelined s.isClosed s.conn x.stage
            (.raised .cancelledError closedFirst) atOnce).map fun y =>
              { s with conn := y.1, dispatchers := set { stage := y.2, cancel := .delivered } }
        | _ => none
    | _ =>
      (resumeDispatcher pipelined s.isClosed s.conn x.stage r atOnce).map fun y =>
        { s with conn := y.1, dispatchers := set { x with stage := y.2 } }

def lastActive (s : Session) (now : ℚ) : ℚ :=
  s.lastSend.getD ((s.lastConnect.filter (· ≠ 0)).getD now)

/-- One pass of the idle closer over the client. -/
def idleClose (s : Session) (now : ℚ) : Session :=
  if s.dispatcherTask = none then s
  else if now - s.lastActive now < idleClientTimeout then
    { s with lastSend := some (s.lastActive now) }
  else { s with lastSend := some (s.lastActive now) }.close .idle

inductive Act
  | connect
  | tryClient (now : ℚ)
  | close
  | routerClose
  | idleClose (now : ℚ)
  | reply (k : ℕ) (r : Reply) (atOnce : Bool)
  | timeout (k : ℕ) (closedFirst atOnce : Bool)
  | dispatch (d : ℕ) (r : Reply) (atOnce : Bool)
  | lost (p : ℕ)
  | chunk (p : ℕ) (bytes : Bytes)
  | resume
  | queueMsg (now : ℚ)
  deriving DecidableEq, Repr

def step (pipelined : Bool) (s : Session) : Act → Option Session
  | .connect => some (s.start (s.connect none))
  | .tryClient now => some (s.start (s.tryClient now))
  | .close => some (s.close .plain)
  | .routerClose => some ({ s with isClosed := false }.close .plain)
  | .idleClose now => some (s.idleClose now)
  | .reply k r atOnce => s.resumeCall pipelined k r atOnce
  | .timeout k closedFirst atOnce => s.timeout pipelined k closedFirst atOnce
  | .dispatch d r atOnce => s.dispatch pipelined d r atOnce
  | .lost p => some { s with conn := s.conn.close p }
  | .chunk p bytes =>
    if s.conn.IsLive p then some { s with conn := s.conn.receive p bytes } else none
  | .resume =>
    if 0 < s.conn.reading then
      some { s with conn := { s.conn with reading := s.conn.reading - 1 }.pass }
    else none
  | .queueMsg now => some { s with lastSend := some now }

theorem step_chunk {pipelined : Bool} {s t : Session} {p : ℕ} {bytes : Bytes}
    (h : s.step pipelined (.chunk p bytes) = some t) :
    s.conn.IsLive p ∧ t = { s with conn := s.conn.receive p bytes } := by
  rw [step] at h
  split_ifs at h with hlive
  exact ⟨hlive, (Option.some.inj h).symm⟩

theorem step_resume {pipelined : Bool} {s t : Session} (h : s.step pipelined .resume = some t) :
    t = { s with
      conn := ({ s.conn with reading := s.conn.reading - 1 } : Connection).pass } := by
  rw [step] at h
  split_ifs at h
  exact (Option.some.inj h).symm

inductive CallStep (pipelined : Bool) (s : Session) (k : ℕ) (atOnce : Bool) :
    Reply → Session → Prop where

  | enter {now : ℚ} : s.calls[k]? = some (.entering now) →
      CallStep pipelined s k atOnce .done (s.setCall k (s.connect (some now)))

  | handshake {tried : Option ℚ} {m m' : MqttConnect} {before after : Bool} {r : Reply}
      {conn : Connection} : s.calls[k]? = some (.connect tried m before) →
      m.resume pipelined s.conn r atOnce = some (conn, m') → (∀ p, m' ≠ .returned p) →
      (∀ exc, m' ≠ .raised exc) →
      CallStep pipelined s k atOnce r ({ s with conn }.setCall k (.connect tried m' after))

  | connected {tried : Option ℚ} {m : MqttConnect} {p : ℕ} {before : Bool} {r : Reply}
      {conn : Connection} : s.calls[k]? = some (.connect tried m before) →
      m.resume pipelined s.conn r atOnce = some (conn, .returned p) →
      CallStep pipelined s k atOnce r ((({ s with conn } : Session).connected tried p).1.setCall k
        (.over (({ s with conn } : Session).connected tried p).2))

  | connectFailed {tried : Option ℚ} {m : MqttConnect} {exc : AwaitExc} {before after : Bool}
      {r : Reply} {conn : Connection} : s.calls[k]? = some (.connect tried m before) →
      m.resume pipelined s.conn r atOnce = some (conn, .raised exc) →
      CallStep pipelined s k atOnce r
        ((({ s with conn } : Session).connectFailed tried exc after).1.setCall k
          (.over (({ s with conn } : Session).connectFailed tried exc after).2))

  | cancelled {closer : Closer} {d : Option ℕ} : s.calls[k]? = some (.cancelling closer d) →
      (∀ x ∈ d.bind fun d => s.dispatchers[d]?, x.stage = .finished) → s.conn.pipe = none →
      CallStep pipelined s k atOnce .done
        (({ s with dispatcherTask := none }.released closer).setCall k (.over .closed))

  | disconnect {closer : Closer} {d : Option ℕ} {p : ℕ} :
      s.calls[k]? = some (.cancelling closer d) →
      (∀ x ∈ d.bind fun d => s.dispatchers[d]?, x.stage = .finished) → s.conn.pipe = some p →
      CallStep pipelined s k atOnce .done
        ({ s with dispatcherTask := none }.setCall k (.disconnecting closer))

  | interrupted {call : ClientCall} {closer : Closer} {closedFirst : Bool} :
      s.calls[k]? = some call →
      (∃ d, call = .cancelling closer d) ∨ call = .disconnecting closer →
      CallStep pipelined s k atOnce (.raised .cancelledError closedFirst)
        (s.closeFailed k closer .cancelledError)

  | noPipe {closer : Closer} {exc : PyExc} {r : Reply} :
      s.calls[k]? = some (.disconnecting closer) → s.conn.pipe = none →
      CallStep pipelined s k atOnce r (s.closeFailed k closer (.other exc))

  | closePipe {closer : Closer} {p : ℕ} {r : Reply} :
      s.calls[k]? = some (.disconnecting closer) → s.conn.pipe = some p →
      CallStep pipelined s k atOnce r
        ({ s with conn := s.conn.closeIf atOnce p }.setCall k (.closingPipe closer p))

  | closed {closer : Closer} {p : ℕ} : s.calls[k]? = some (.closingPipe closer p) →
      CallStep pipelined s k atOnce .done
        (({ s with conn := { s.conn.close p with pipe := none } }.released closer).setCall k
          (.over .closed))

  | closeFailed {closer : Closer} {p : ℕ} {exc : AwaitExc} {closedFirst : Bool} :
      s.calls[k]? = some (.closingPipe closer p) →
      CallStep pipelined s k atOnce (.raised exc closedFirst)
        ({ s with conn := s.conn.closeIf closedFirst p }.closeFailed k closer exc)

variable {pipelined atOnce : Bool} {s t : Session} {k : ℕ} {r : Reply}

@[simp] theorem released_calls (s : Session) (closer : Closer) :
    (s.released closer).calls = s.calls := by
  cases closer <;> rfl

@[simp] theorem released_conn (s : Session) (closer : Closer) :
    (s.released closer).conn = s.conn := by
  cases closer <;> rfl

@[simp] theorem cancelTask_calls (s : Session) : s.cancelTask.calls = s.calls := by
  rw [cancelTask]
  split <;> rfl

@[simp] theorem cancelTask_isClosed (s : Session) : s.cancelTask.isClosed = s.isClosed := by
  rw [cancelTask]
  split <;> rfl

@[simp] theorem cancelTask_conn (s : Session) : s.cancelTask.conn = s.conn := by
  rw [cancelTask]
  split <;> rfl

@[simp] theorem cancelTask_dispatcherTask (s : Session) :
    s.cancelTask.dispatcherTask = s.dispatcherTask := by
  rw [cancelTask]
  split <;> rfl

@[simp] theorem cancelTask_lastConnect (s : Session) :
    s.cancelTask.lastConnect = s.lastConnect := by
  rw [cancelTask]
  split <;> rfl

@[simp] theorem cancelTask_lastSend (s : Session) : s.cancelTask.lastSend = s.lastSend := by
  rw [cancelTask]
  split <;> rfl

theorem stage_of_cancelTask {e : ℕ} {x : DispatcherTask}
    (h : s.cancelTask.dispatchers[e]? = some x) :
    ∃ y, s.dispatchers[e]? = some y ∧ y.stage = x.stage := by
  rw [cancelTask] at h
  split at h
  · exact ⟨x, h, rfl⟩
  next d _ =>
    rw [List.getElem?_modify] at h
    obtain ⟨y, hy, rfl⟩ := Option.map_eq_some_iff.mp h
    refine ⟨y, hy, ?_⟩
    split_ifs <;> rfl

@[simp] theorem connected_calls (s : Session) (tried : Option ℚ) (p : ℕ) :
    (s.connected tried p).1.calls = s.calls := by
  simp only [connected]
  split <;> rfl

@[simp] theorem connected_conn (s : Session) (tried : Option ℚ) (p : ℕ) :
    (s.connected tried p).1.conn = s.conn := by
  simp only [connected]
  split <;> rfl

theorem connectFailed_fst (s : Session) (tried : Option ℚ) (exc : AwaitExc) (timedOut : Bool) :
    ∃ lastConnect, (s.connectFailed tried exc timedOut).1 = { s with lastConnect } := by
  cases tried with
  | none => exact ⟨s.lastConnect, rfl⟩
  | some now =>
    simp only [connectFailed]
    split_ifs <;> exact ⟨_, rfl⟩

theorem resumeConnect_callStep {tried : Option ℚ} {m : MqttConnect} {before after : Bool}
    (hk : s.calls[k]? = some (.connect tried m before))
    (h : s.resumeConnect pipelined k tried m after r atOnce = some t) :
    CallStep pipelined s k atOnce r t := by
  rw [resumeConnect] at h
  split at h
  · cases h
  next conn p hr =>
    simp only [Option.some.injEq] at h
    exact h ▸ .connected hk hr
  next conn exc hr =>
    simp only [Option.some.injEq] at h
    exact h ▸ .connectFailed hk hr
  next conn m' hreturned hraised hr =>
    simp only [Option.some.injEq] at h
    exact h ▸ .handshake hk hr hreturned hraised

theorem closePipe_callStep {closer : Closer} (hk : s.calls[k]? = some (.disconnecting closer)) :
    CallStep pipelined s k atOnce r (s.closePipe k closer atOnce) := by
  rw [closePipe]
  split
  next hp => exact .noPipe hk hp
  next p hp => exact .closePipe hk hp

theorem resumeCall_callStep (h : s.resumeCall pipelined k r atOnce = some t) :
    CallStep pipelined s k atOnce r t := by
  rw [resumeCall] at h
  split at h
  next now hk =>
    split_ifs at h with hr
    cases h
    exact hr ▸ .enter hk
  next tried m timedOut hk => exact resumeConnect_callStep hk h
  next closer d hk =>
    split at h
    · split_ifs at h with hrunning
      have hdone : ∀ x ∈ d.bind fun d => s.dispatchers[d]?, x.stage = .finished := by
        intro x hx
        by_contra hne
        exact hrunning ⟨x, hx, hne⟩
      dsimp only at h
      split at h
      next hp =>
        cases h
        exact .cancelled hk hdone hp
      next p hp =>
        cases h
        exact .disconnect hk hdone hp
    · cases h
      exact .interrupted hk (Or.inl ⟨d, rfl⟩)
    · cases h
  next closer hk =>
    split at h
    · cases h
      exact closePipe_callStep hk
    · split_ifs at h with hexc
      · cases h
        exact hexc ▸ .interrupted hk (Or.inr rfl)
      · cases h
        exact closePipe_callStep hk
    · cases h
  next closer p hk =>
    split at h
    · cases h
      exact .closed hk
    · cases h
      exact .closeFailed hk
    · cases h
  · cases h
  · cases h

theorem timeout_callStep {closedFirst : Bool}
    (h : s.timeout pipelined k closedFirst atOnce = some t) :
    CallStep pipelined s k atOnce (.raised .cancelledError closedFirst) t := by
  rw [timeout] at h
  split at h
  next tried m hk => exact resumeConnect_callStep hk h
  · cases h

theorem dispatch_eq_some {d : ℕ} (h : s.dispatch pipelined d r atOnce = some t) :
    ∃ x conn y, s.dispatchers[d]? = some x ∧
      t = { s with conn, dispatchers := s.dispatchers.set d y } ∧
      ((y.cancel = x.cancel ∧ x.cancel ≠ .requested ∨
          x.cancel = .requested ∧ y.cancel = .delivered) ∧
        resumeDispatcher pipelined s.isClosed s.conn x.stage r atOnce = some (conn, y.stage) ∨
        x.cancel = .requested ∧ x.stage = .notStarted ∧ y.cancel = .delivered ∧
          y.stage = .finished ∧ conn = s.conn) := by
  rw [dispatch] at h
  split at h
  · cases h
  next x hx =>
    dsimp only at h
    split at h
    next hc =>
      split_ifs at h with hstage
      · cases h
        exact ⟨x, s.conn, _, hx, rfl, Or.inr ⟨hc, hstage, rfl, rfl, rfl⟩⟩
      · split at h
        · obtain ⟨⟨conn, stage⟩, hr, rfl⟩ := Option.map_eq_some_iff.mp h
          exact ⟨x, conn, _, hx, rfl, Or.inl ⟨Or.inr ⟨hc, rfl⟩, hr⟩⟩
        · cases h
    next hc =>
      obtain ⟨⟨conn, stage⟩, hr, rfl⟩ := Option.map_eq_some_iff.mp h
      exact ⟨x, conn, _, hx, rfl, Or.inl ⟨Or.inl ⟨rfl, hc⟩, hr⟩⟩

end Session

end Sidewire
