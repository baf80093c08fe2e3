import Sidewire.Mqtt.Reader

/-! # The handshake

One execution of `mqtt_connect`, from await to await. Each await ends with a
result or with an exception, a cancellation included; what the function does
then depends on the handler around that await.
-/

namespace Sidewire

inductive AwaitExc
  | timeoutError
  | connectionError
  | osError
  | cancelledError
  | other (exc : PyExc)
  deriving DecidableEq, Repr

namespace AwaitExc

/-- `except (asyncio.TimeoutError, ConnectionError, OSError)`. -/
def isNetwork : AwaitExc → Bool
  | timeoutError | connectionError | osError => true
  | cancelledError | other _ => false

/-- `except Exception`. -/
def isException : AwaitExc → Bool
  | cancelledError => false
  | _ => true

end AwaitExc

structure StreamPipe where
  isOpen : Bool
  registered : Bool
  deriving DecidableEq, Repr

/-- The connection state of a client. Pipes are numbered as they are opened, and every buffered
byte carries the number of the pipe it came from. A suspended call of the packet reader is counted
in `reading`, and `arrivals` remembers what the buffer held when bytes came in. -/
structure Connection where
  pipe : Option ℕ := none
  pipes : List StreamPipe := []
  buf : List (ℕ × UInt8) := []
  reading : ℕ := 0
  arrivals : List (ℕ × List (ℕ × UInt8)) := []
  deriving DecidableEq, Repr

namespace Connection

def opened (c : Connection) : Connection := { c with pipes := c.pipes ++ [⟨true, false⟩] }

def close (c : Connection) (p : ℕ) : Connection :=
  { c with pipes := c.pipes.modify p fun pipe => { pipe with isOpen := false } }

def closeIf (c : Connection) (b : Bool) (p : ℕ) : Connection := if b then c.close p else c

/-- `self.pipe = pipe` and the hand-over to the packet reader. -/
def register (c : Connection) (p : ℕ) : Connection :=
  { c with pipe := some p, pipes := c.pipes.modify p fun pipe => { pipe with registered := true } }

def pass (c : Connection) : Connection :=
  match scan (c.buf.map Prod.snd) with
  | .wait => c
  | .fail _ rest => { c with buf := c.buf.drop (c.buf.length - rest.length) }
  | .packet _ rest =>
    { c with buf := c.buf.drop (c.buf.length - rest.length), reading := c.reading + 1 }

def receive (c : Connection) (p : ℕ) (chunk : Bytes) : Connection :=
  if chunk = [] then c
  else pass { c with
    buf := c.buf ++ chunk.map fun byte => (p, byte)
    arrivals := c.arrivals ++ [(p, c.buf)] }

end Connection

/-- Where an execution of `mqtt_connect` stands: at an await, with the number of its pipe, or at
its end. -/
inductive MqttConnect
  | connecting
  | sendingConnect (p : ℕ)
  | sendingSubscribeFirst (p : ℕ)
  | awaitingConnack (p : ℕ)
  | closing (p : ℕ) (exc : AwaitExc)
  | readingLeftover (p : ℕ)
  | sendingSubscribe (p : ℕ)
  | awaitingSuback (p : ℕ)
  | unwinding (p : ℕ) (exc : AwaitExc)
  | returned (p : ℕ)
  | raised (exc : AwaitExc)
  deriving DecidableEq, Repr

/-- How an await ends. An exception out of `pipe.close()` says whether the pipe was closed before
it. -/
inductive Reply
  | pipe (connected : Bool)
  | sent
  | data (bytes : Bytes)
  | codes (codes : Bytes)
  | done
  | raised (exc : AwaitExc) (closedFirst : Bool)
  deriving DecidableEq, Repr

namespace MqttConnect

def connack : Bytes := [0x20, 0x02, 0x00, 0x00]

/-- The handler around the subscription: `self.pipe = None`, then `await pipe.close()`. Whether
that call has closed the pipe by the time it suspends is given with the step. -/
def unwind (c : Connection) (p : ℕ) (exc : AwaitExc) (atOnce : Bool) : Connection × MqttConnect :=
  (({ c with pipe := none } : Connection).closeIf atOnce p, .unwinding p exc)

/-- The CONNACK, and what came glued to it. -/
def handOver (pipelined : Bool) (c : Connection) (p : ℕ) (connackRaw : Bytes) (atOnce : Bool) :
    Connection × MqttConnect :=
  let subackLeftover := connackRaw.drop 4
  if connackRaw.take 4 ≠ connack then (c.closeIf atOnce p, .closing p .connectionError)
  else if ¬ pipelined then (c.register p, .sendingSubscribe p)
  else if subackLeftover = [] then (c.register p, .awaitingSuback p)
  else ((c.register p).receive p subackLeftover, .readingLeftover p)

def checkCodes (c : Connection) (p : ℕ) (codes : Bytes) (atOnce : Bool) :
    Connection × MqttConnect :=
  if codes.all (· == 1) then (c, .returned p) else unwind c p .connectionError atOnce

/-- An await of `mqtt_connect` ends, and the function runs up to its next await or its end. -/
def resume (pipelined : Bool) (c : Connection) (m : MqttConnect) (r : Reply) (atOnce : Bool) :
    Option (Connection × MqttConnect) :=
  match m with
  | .connecting =>
    match r with
    | .pipe true => some (c.opened, .sendingConnect c.pipes.length)
    | .pipe false => some (c, .raised .connectionError)
    | .raised exc _ => some (c, .raised exc)
    | _ => none
  | .sendingConnect p =>
    match r with
    | .sent => some (c, if pipelined then .sendingSubscribeFirst p else .awaitingConnack p)
    | .raised exc _ => some (c, .raised exc)
    | _ => none
  | .sendingSubscribeFirst p =>
    match r with
    | .sent => some (c, .awaitingConnack p)
    | .raised exc _ => some (c, .raised exc)
    | _ => none
  | .awaitingConnack p =>
    match r with
    | .data connackRaw => some (handOver pipelined c p connackRaw atOnce)
    | .raised exc _ =>
      -- only the timeout has a handler
      if exc = .timeoutError then some (c.closeIf atOnce p, .closing p .connectionError)
      else some (c, .raised exc)
    | _ => none
  | .closing p exc =>
    match r with
    | .done => some (c.close p, .raised exc)
    | .raised err closedFirst => some (c.closeIf closedFirst p, .raised err)
    | _ => none
  | .readingLeftover p =>
    match r with
    | .done => some (c, .awaitingSuback p)
    | .raised exc _ => some (unwind c p exc atOnce)
    | _ => none
  | .sendingSubscribe p =>
    match r with
    | .sent => some (c, .awaitingSuback p)
    | .raised exc _ => some (unwind c p exc atOnce)
    | _ => none
  | .awaitingSuback p =>
    match r with
    | .codes codes => some (checkCodes c p codes atOnce)
    | .raised exc _ => some (unwind c p exc atOnce)
    | _ => none
  | .unwinding p exc =>
    match r with
    | .done => some (c.close p, .raised exc)
    | .raised err closedFirst =>
      some (c.closeIf closedFirst p, .raised (if err.isException then exc else err))
    | _ => none
  | .returned _ => none
  | .raised _ => none

/-- The execution of `mqtt_connect` whose awaits end as given. -/
def run (pipelined : Bool) :
    Connection → MqttConnect → List (Reply × Bool) → Option (Connection × MqttConnect)
  | c, m, [] => some (c, m)
  | c, m, (r, atOnce) :: rs => (resume pipelined c m r atOnce).bind fun s => run pipelined s.1 s.2 rs

end MqttConnect

namespace MqttConnect

def unregistered : MqttConnect → Option ℕ
  | .sendingConnect p | .sendingSubscribeFirst p | .awaitingConnack p => some p
  | _ => none

def registered : MqttConnect → Option ℕ
  | .readingLeftover p | .sendingSubscribe p | .awaitingSuback p => some p
  | _ => none

def ending : MqttConnect → Option ℕ
  | .closing p _ | .unwinding p _ => some p
  | _ => none

/-- The await of a `pipe.close()` ends with the pipe closed. -/
def closes : Reply → Bool
  | .done => true
  | .raised _ closedFirst => closedFirst
  | _ => false

def grants : Reply → Bool
  | .codes codes => codes.all (· == 1)
  | _ => false

inductive HandshakeStep (c : Connection) (atOnce : Bool) :
    MqttConnect → Reply → Connection → MqttConnect → Prop where

  | opened : HandshakeStep c atOnce .connecting (.pipe true) c.opened
      (.sendingConnect c.pipes.length)

  | refused {r : Reply} {exc : AwaitExc} : HandshakeStep c atOnce .connecting r c (.raised exc)

  | sent {m m' : MqttConnect} {p : ℕ} : m.unregistered = some p → m'.unregistered = some p →
      HandshakeStep c atOnce m .sent c m'

  | failed {m : MqttConnect} {p : ℕ} {r : Reply} {exc : AwaitExc} : m.unregistered = some p →
      HandshakeStep c atOnce m r c (.raised exc)

  | closing {p : ℕ} {r : Reply} {exc : AwaitExc} :
      HandshakeStep c atOnce (.awaitingConnack p) r (c.closeIf atOnce p) (.closing p exc)

  | handOver {m' : MqttConnect} {p : ℕ} {connackRaw chunk : Bytes} : m'.registered = some p →
      HandshakeStep c atOnce (.awaitingConnack p) (.data connackRaw)
        ((c.register p).receive p chunk) m'

  | subscribed {m : MqttConnect} {p : ℕ} {r : Reply} : m.registered = some p →
      HandshakeStep c atOnce m r c (.awaitingSuback p)

  | returned {p : ℕ} {r : Reply} : grants r = true →
      HandshakeStep c atOnce (.awaitingSuback p) r c (.returned p)

  | unwind {m : MqttConnect} {p : ℕ} {r : Reply} {exc : AwaitExc} : m.registered = some p →
      HandshakeStep c atOnce m r (unwind c p exc atOnce).1 (unwind c p exc atOnce).2

  | closed {m : MqttConnect} {p : ℕ} {r : Reply} {exc : AwaitExc} : m.ending = some p →
      HandshakeStep c atOnce m r (c.closeIf (closes r) p) (.raised exc)

theorem handOver_handshakeStep (pipelined : Bool) (c : Connection) (p : ℕ) (connackRaw : Bytes)
    (atOnce : Bool) : HandshakeStep c atOnce (.awaitingConnack p) (.data connackRaw)
      (handOver pipelined c p connackRaw atOnce).1 (handOver pipelined c p connackRaw atOnce).2 := by
  simp only [handOver]
  split_ifs
  · exact .closing
  · exact @HandshakeStep.handOver c atOnce (.awaitingSuback p) p connackRaw [] rfl
  · exact .handOver rfl
  · exact @HandshakeStep.handOver c atOnce (.sendingSubscribe p) p connackRaw [] rfl

theorem resume_handshakeStep {pipelined atOnce : Bool} {c conn : Connection} {m m' : MqttConnect}
    {r : Reply} (h : m.resume pipelined c r atOnce = some (conn, m')) :
    HandshakeStep c atOnce m r conn m' := by
  cases m with
  | connecting =>
    simp only [resume] at h
    split at h <;> cases h
    · exact .opened
    · exact .refused
    · exact .refused
  | sendingConnect p =>
    simp only [resume] at h
    split at h <;> cases h
    · cases pipelined <;> exact .sent rfl rfl
    · exact .failed rfl
  | sendingSubscribeFirst p =>
    simp only [resume] at h
    split at h <;> cases h
    · exact .sent rfl rfl
    · exact .failed rfl
  | awaitingConnack p =>
    simp only [resume] at h
    split at h
    · obtain ⟨rfl, rfl⟩ := Prod.mk.inj (Option.some.inj h).symm
      exact handOver_handshakeStep ..
    · split_ifs at h <;> cases h
      · exact .closing
      · exact .failed rfl
    · cases h
  | closing p exc =>
    simp only [resume] at h
    split at h <;> cases h <;> exact .closed rfl
  | readingLeftover p =>
    simp only [resume] at h
    split at h
    · cases h
      exact .subscribed rfl
    · obtain ⟨rfl, rfl⟩ := Prod.mk.inj (Option.some.inj h).symm
      exact .unwind rfl
    · cases h
  | sendingSubscribe p =>
    simp only [resume] at h
    split at h
    · cases h
      exact .subscribed rfl
    · obtain ⟨rfl, rfl⟩ := Prod.mk.inj (Option.some.inj h).symm
      exact .unwind rfl
    · cases h
  | awaitingSuback p =>
    simp only [resume, checkCodes] at h
    split at h
    · split_ifs at h with hcodes
      · cases h
        exact .returned hcodes
      · obtain ⟨rfl, rfl⟩ := Prod.mk.inj (Option.some.inj h).symm
        exact .unwind rfl
    · obtain ⟨rfl, rfl⟩ := Prod.mk.inj (Option.some.inj h).symm
      exact .unwind rfl
    · cases h
  | unwinding p exc =>
    simp only [resume] at h
    split at h <;> cases h <;> exact .closed rfl
  | returned p => cases h
  | raised exc => cases h

end MqttConnect

namespace Connection

variable {c : Connection} {p q : ℕ}

def IsOpen (c : Connection) (p : ℕ) : Prop := ∃ pipe ∈ c.pipes[p]?, pipe.isOpen = true

instance (c : Connection) (p : ℕ) : Decidable (c.IsOpen p) :=
  decidable_of_iff ((c.pipes[p]?).any (·.isOpen) = true) (by simp [IsOpen, Option.any_eq_true])

@[simp] theorem isOpen_close : (c.close p).IsOpen q ↔ q ≠ p ∧ c.IsOpen q := by
  simp only [IsOpen, close, List.getElem?_modify]
  by_cases h : p = q
  · simp [h]
  · cases c.pipes[q]? <;> simp [h, Ne.symm h]

@[simp] theorem isOpen_closeIf {b : Bool} :
    (c.closeIf b p).IsOpen q ↔ (b = true → q ≠ p) ∧ c.IsOpen q := by
  cases b <;> simp [closeIf]

@[simp] theorem isOpen_register : (c.register p).IsOpen q ↔ c.IsOpen q := by
  simp only [IsOpen, register, List.getElem?_modify]
  by_cases h : p = q <;> cases c.pipes[q]? <;> simp [h]

@[simp] theorem isOpen_setPipe {pipe : Option ℕ} :
    ({ c with pipe } : Connection).IsOpen q ↔ c.IsOpen q := Iff.rfl

theorem isOpen_opened : c.opened.IsOpen q ↔ c.IsOpen q ∨ q = c.pipes.length := by
  simp only [IsOpen, opened]
  rcases lt_trichotomy q c.pipes.length with h | h | h
  · simp [List.getElem?_append_left h, h.ne]
  · simp [h]
  · have hnone : (c.pipes ++ [⟨true, false⟩])[q]? = none := by simp; omega
    have hnone' : c.pipes[q]? = none := by simp; omega
    rw [hnone, hnone']
    simp; omega

def IsLive (c : Connection) (p : ℕ) : Prop :=
  ∃ pipe ∈ c.pipes[p]?, pipe.isOpen = true ∧ pipe.registered = true

instance (c : Connection) (p : ℕ) : Decidable (c.IsLive p) :=
  decidable_of_iff ((c.pipes[p]?).any (fun pipe => pipe.isOpen && pipe.registered) = true)
    (by simp [IsLive, Option.any_eq_true])

theorem IsLive.isOpen (h : c.IsLive p) : c.IsOpen p := by
  obtain ⟨pipe, hpipe, hopen, -⟩ := h
  exact ⟨pipe, hpipe, hopen⟩

@[simp] theorem isLive_close : (c.close p).IsLive q ↔ q ≠ p ∧ c.IsLive q := by
  simp only [IsLive, close, List.getElem?_modify]
  by_cases h : p = q
  · simp [h]
  · cases c.pipes[q]? <;> simp [h, Ne.symm h]

@[simp] theorem isLive_closeIf {b : Bool} :
    (c.closeIf b p).IsLive q ↔ (b = true → q ≠ p) ∧ c.IsLive q := by
  cases b <;> simp [closeIf]

@[simp] theorem isLive_register :
    (c.register p).IsLive q ↔ c.IsLive q ∨ q = p ∧ c.IsOpen p := by
  simp only [IsLive, IsOpen, register, List.getElem?_modify]
  by_cases h : p = q
  · subst h
    cases c.pipes[p]? <;> simp
    tauto
  · cases c.pipes[q]? <;> simp [h, Ne.symm h]

@[simp] theorem isLive_setPipe {pipe : Option ℕ} :
    ({ c with pipe } : Connection).IsLive q ↔ c.IsLive q := Iff.rfl

@[simp] theorem isLive_opened : c.opened.IsLive q ↔ c.IsLive q := by
  simp only [IsLive, opened]
  rcases lt_trichotomy q c.pipes.length with h | h | h
  · simp [List.getElem?_append_left h]
  · simp [h]
  · have hnone : (c.pipes ++ [⟨true, false⟩])[q]? = none := by simp; omega
    have hnone' : c.pipes[q]? = none := by simp; omega
    rw [hnone, hnone']

theorem pass_fields (c : Connection) : c.pass.pipe = c.pipe ∧ c.pass.pipes = c.pipes := by
  rw [pass]
  split <;> exact ⟨rfl, rfl⟩

theorem receive_fields (c : Connection) (p : ℕ) (chunk : Bytes) :
    (c.receive p chunk).pipe = c.pipe ∧ (c.receive p chunk).pipes = c.pipes := by
  rw [receive]
  split_ifs
  · exact ⟨rfl, rfl⟩
  · exact pass_fields _

@[simp] theorem receive_pipe (c : Connection) (p : ℕ) (chunk : Bytes) :
    (c.receive p chunk).pipe = c.pipe := (receive_fields c p chunk).1

@[simp] theorem isOpen_receive {chunk : Bytes} : (c.receive p chunk).IsOpen q ↔ c.IsOpen q := by
  rw [IsOpen, (receive_fields c p chunk).2, IsOpen]

@[simp] theorem isLive_receive {chunk : Bytes} : (c.receive p chunk).IsLive q ↔ c.IsLive q := by
  rw [IsLive, (receive_fields c p chunk).2, IsLive]

@[simp] theorem closeIf_pipe {b : Bool} : (c.closeIf b p).pipe = c.pipe := by
  cases b <;> rfl

end Connection

namespace MqttConnect

open Connection

variable {pipelined : Bool} {c t : Connection} {p : ℕ} {m : MqttConnect} {exc exc' : AwaitExc}
  {script : List (Reply × Bool)} {atOnce : Bool}

/-- The last await is one of `pipe.close()`, which closed the pipe when it was called or before
the await ended. -/
def lastCloses : List (Reply × Bool) → Bool
  | [(_, atOnce), (r, _)] => atOnce || closes r
  | _ :: x :: y :: rest => lastCloses (x :: y :: rest)
  | _ => false

def connackHandled : List (Reply × Bool) → Bool
  | (.data _, _) :: _ => true
  | (.raised exc _, _) :: _ => exc = .timeoutError
  | _ => false

/-- The sends before the CONNACK return, of the CONNECT and, in the pipelined handshake, of the
SUBSCRIBE; the CONNACK wait fails by its timeout or not at all; and `pipe.close()` is not interrupted
before it has closed the pipe. -/
def covered : Bool → List (Reply × Bool) → Bool
  | false, (.sent, b) :: script =>
    connackHandled script && lastCloses ((.sent, b) :: script)
  | true, (.sent, b) :: (.sent, b') :: script =>
    connackHandled script && lastCloses ((.sent, b) :: (.sent, b') :: script)
  | _, _ => false

theorem run_cons_eq_some {r : Reply} {u : Connection × MqttConnect} :
    run pipelined c m ((r, atOnce) :: script) = some u ↔
      ∃ d n, resume pipelined c m r atOnce = some (d, n) ∧ run pipelined d n script = some u := by
  rw [run, Option.bind_eq_some_iff]
  constructor
  · rintro ⟨⟨d, n⟩, hr, hrun⟩
    exact ⟨d, n, hr, hrun⟩
  · rintro ⟨d, n, hr, hrun⟩
    exact ⟨(d, n), hr, hrun⟩

theorem run_raised (h : run pipelined c (.raised exc) script = some (t, .raised exc')) :
    script = [] ∧ t = c := by
  cases script with
  | nil =>
    simp only [run, Option.some.injEq, Prod.mk.injEq] at h
    exact ⟨rfl, h.1.symm⟩
  | cons r script =>
    obtain ⟨d, n, hr, -⟩ := run_cons_eq_some.mp h
    cases hr

theorem run_returned {q : ℕ} (h : run pipelined c (.returned q) script = some (t, .raised exc)) :
    False := by
  cases script with
  | nil => simp [run] at h
  | cons r script =>
    obtain ⟨d, n, hr, -⟩ := run_cons_eq_some.mp h
    cases hr

theorem run_handler (hm : m = .closing p exc ∨ m = .unwinding p exc)
    (h : run pipelined c m script = some (t, .raised exc')) :
    ∃ r b, script = [(r, b)] ∧ (t.IsOpen p ↔ closes r = false ∧ c.IsOpen p) ∧ t.pipe = c.pipe := by
  cases script with
  | nil =>
    rcases hm with rfl | rfl <;> simp [run] at h
  | cons r script =>
    obtain ⟨r, b⟩ := r
    obtain ⟨d, n, hr, hrun⟩ := run_cons_eq_some.mp h
    rcases hm with rfl | rfl <;> cases r <;> simp only [resume, reduceCtorEq, Option.some.injEq,
      Prod.mk.injEq] at hr <;> obtain ⟨rfl, rfl⟩ := hr <;>
      obtain ⟨rfl, rfl⟩ := run_raised hrun <;> exact ⟨_, _, rfl, by simp [closes], by simp [close]⟩

theorem run_unwind (hp : c.IsOpen p) (r : Reply)
    (h : run pipelined (unwind c p exc atOnce).1 (unwind c p exc atOnce).2 script =
      some (t, .raised exc')) :
    1 ≤ script.length ∧ t.pipe = none ∧
      (t.IsOpen p ↔ lastCloses ((r, atOnce) :: script) = false) := by
  obtain ⟨r', b, rfl, hopen, hpipe⟩ := run_handler (Or.inr rfl) h
  refine ⟨by simp, by simpa [unwind] using hpipe, ?_⟩
  rw [hopen]
  cases atOnce <;> simp [unwind, lastCloses, hp]

theorem lastCloses_cons {r : Reply × Bool} (h : 2 ≤ script.length) :
    lastCloses (r :: script) = lastCloses script := by
  match script, h with
  | _ :: _ :: _, _ => rfl

theorem run_awaitingSuback (hp : c.IsOpen p)
    (h : run pipelined c (.awaitingSuback p) script = some (t, .raised exc)) :
    2 ≤ script.length ∧ t.pipe = none ∧ (t.IsOpen p ↔ lastCloses script = false) := by
  cases script with
  | nil => simp [run] at h
  | cons r script =>
    obtain ⟨r, b⟩ := r
    obtain ⟨d, n, hr, hrun⟩ := run_cons_eq_some.mp h
    cases r <;> simp only [resume, reduceCtorEq, Option.some.injEq] at hr
    case codes codes =>
      rw [checkCodes] at hr
      split_ifs at hr
      · obtain ⟨rfl, rfl⟩ := Prod.mk.inj hr
        exact (run_returned hrun).elim
      · obtain ⟨rfl, rfl⟩ := Prod.mk.inj hr.symm
        have := run_unwind hp (.codes codes) hrun
        simpa using this
    case raised e cf =>
      obtain ⟨rfl, rfl⟩ := Prod.mk.inj hr.symm
      have := run_unwind hp (.raised e cf) hrun
      simpa using this

theorem run_registered (hp : c.IsOpen p) (hm : m = .readingLeftover p ∨ m = .sendingSubscribe p)
    (h : run pipelined c m script = some (t, .raised exc)) :
    2 ≤ script.length ∧ t.pipe = none ∧ (t.IsOpen p ↔ lastCloses script = false) := by
  cases script with
  | nil => rcases hm with rfl | rfl <;> simp [run] at h
  | cons r script =>
    obtain ⟨r, b⟩ := r
    obtain ⟨d, n, hr, hrun⟩ := run_cons_eq_some.mp h
    have hgo : (d, n) = (c, .awaitingSuback p) ∨ ∃ e, (d, n) = unwind c p e b := by
      rcases hm with rfl | rfl <;> cases r <;>
        simp only [resume, reduceCtorEq, Option.some.injEq] at hr
      · exact Or.inl hr.symm
      · exact Or.inr ⟨_, hr.symm⟩
      · exact Or.inl hr.symm
      · exact Or.inr ⟨_, hr.symm⟩
    rcases hgo with hgo | ⟨e, hgo⟩
    · obtain ⟨rfl, rfl⟩ := Prod.mk.inj hgo
      obtain ⟨hlen, hpipe, hopen⟩ := run_awaitingSuback hp hrun
      rw [lastCloses_cons hlen]
      exact ⟨by simp; omega, hpipe, hopen⟩
    · obtain ⟨rfl, rfl⟩ := Prod.mk.inj hgo
      have := run_unwind hp r hrun
      simpa using this

/-- From the CONNACK wait on, a failure is covered unless it is one of that wait other than its
timeout. -/
theorem run_awaitingConnack (hp : c.IsOpen p) (hc : c.pipe ≠ some p)
    (h : run pipelined c (.awaitingConnack p) script = some (t, .raised exc)) :
    (connackHandled script = true → 2 ≤ script.length) ∧ t.pipe ≠ some p ∧
      (t.IsOpen p ↔ (connackHandled script && lastCloses script) = false) := by
  cases script with
  | nil => simp [run] at h
  | cons r script =>
    obtain ⟨r, b⟩ := r
    obtain ⟨d, n, hr, hrun⟩ := run_cons_eq_some.mp h
    -- the pipe is closed in front of the error
    have hclosing : ∀ {e : AwaitExc}, connackHandled ((r, b) :: script) = true →
        run pipelined (c.closeIf b p) (.closing p e) script = some (t, .raised exc) →
        (connackHandled ((r, b) :: script) = true → 2 ≤ ((r, b) :: script).length) ∧
          t.pipe ≠ some p ∧ (t.IsOpen p ↔
            (connackHandled ((r, b) :: script) && lastCloses ((r, b) :: script)) = false) := by
      intro e hhandled hrun
      obtain ⟨r', b', rfl, hopen, hpipe⟩ := run_handler (Or.inl rfl) hrun
      refine ⟨fun _ => by simp, by rw [hpipe, closeIf_pipe]; exact hc, ?_⟩
      rw [hopen, hhandled]
      cases b <;> simp [lastCloses, hp]
    cases r <;> simp only [resume, reduceCtorEq, Option.some.injEq] at hr
    case data connackRaw =>
      -- the reader is registered and the pipe is the client's
      have hlater : 2 ≤ script.length ∧ t.pipe = none ∧ (t.IsOpen p ↔ lastCloses script = false) →
          (connackHandled ((Reply.data connackRaw, b) :: script) = true →
            2 ≤ ((Reply.data connackRaw, b) :: script).length) ∧ t.pipe ≠ some p ∧
          (t.IsOpen p ↔ (connackHandled ((Reply.data connackRaw, b) :: script) &&
            lastCloses ((Reply.data connackRaw, b) :: script)) = false) := by
        rintro ⟨hlen, hpipe, hopen⟩
        rw [hopen, hpipe, lastCloses_cons hlen]
        simp [connackHandled]
        omega
      simp only [handOver] at hr
      split_ifs at hr
      · obtain ⟨rfl, rfl⟩ := Prod.mk.inj hr
        exact hclosing rfl hrun
      · obtain ⟨rfl, rfl⟩ := Prod.mk.inj hr
        exact hlater (run_awaitingSuback (by simpa using hp) hrun)
      · obtain ⟨rfl, rfl⟩ := Prod.mk.inj hr
        exact hlater (run_registered (by simpa using hp) (Or.inl rfl) hrun)
      · obtain ⟨rfl, rfl⟩ := Prod.mk.inj hr
        exact hlater (run_registered (by simpa using hp) (Or.inr rfl) hrun)
    case raised e cf =>
      split_ifs at hr with he
      · obtain ⟨rfl, rfl⟩ := Prod.mk.inj (Option.some.inj hr)
        exact hclosing (decide_eq_true he) hrun
      · obtain ⟨rfl, rfl⟩ := Prod.mk.inj (Option.some.inj hr)
        obtain ⟨rfl, rfl⟩ := run_raised hrun
        simp [connackHandled, he, hc, hp]

/-- An execution that fails after the TCP connect has closed its pipe and left none behind in
`client.pipe`, exactly if its failure is covered by the handlers. -/
theorem no_leak_iff {r : Bool} (c t : Connection) (script : List (Reply × Bool)) (exc : AwaitExc)
    (hc : ∀ q, c.pipe = some q → q < c.pipes.length)
    (h : run pipelined c .connecting ((.pipe true, r) :: script) = some (t, .raised exc)) :
    (¬ t.IsOpen c.pipes.length ∧ t.pipe ≠ some c.pipes.length) ↔
      covered pipelined script = true := by
  have hopen : c.opened.IsOpen c.pipes.length := isOpen_opened.mpr (Or.inr rfl)
  have hne : c.opened.pipe ≠ some c.pipes.length := fun hq => lt_irrefl _ (hc _ hq)
  obtain ⟨d, n, hr, h⟩ := run_cons_eq_some.mp h
  simp only [resume, Option.some.injEq, Prod.mk.injEq] at hr
  obtain ⟨rfl, rfl⟩ := hr
  -- what is left of the script at the CONNACK wait decides
  have hdecide : ∀ {script' : List (Reply × Bool)},
      run pipelined c.opened (.awaitingConnack c.pipes.length) script' = some (t, .raised exc) →
      ((¬ t.IsOpen c.pipes.length ∧ t.pipe ≠ some c.pipes.length) ↔
        (connackHandled script' && lastCloses script') = true) := by
    intro script' hrun
    obtain ⟨-, hpipe, hiff⟩ := run_awaitingConnack hopen hne hrun
    rw [hiff]
    simp [hpipe]
  have hfail : ∀ {u : Connection} {e : AwaitExc} {script' : List (Reply × Bool)},
      u = c.opened → run pipelined u (.raised e) script' = some (t, .raised exc) →
      script' = [] ∧ t.IsOpen c.pipes.length := by
    rintro u e script' rfl hrun
    obtain ⟨rfl, rfl⟩ := run_raised hrun
    exact ⟨rfl, hopen⟩
  cases script with
  | nil => simp [run] at h
  | cons r₁ script =>
    obtain ⟨r₁, b₁⟩ := r₁
    obtain ⟨d, n, hr, h⟩ := run_cons_eq_some.mp h
    cases r₁ <;> simp only [resume, reduceCtorEq, Option.some.injEq, Prod.mk.injEq] at hr
    case raised e cf =>
      obtain ⟨rfl, rfl⟩ := hr
      obtain ⟨rfl, hleft⟩ := hfail rfl h
      cases pipelined <;> simp [hleft, covered]
    case sent =>
      obtain ⟨rfl, rfl⟩ := hr
      cases pipelined with
      | false =>
        rw [hdecide h]
        simp only [covered, Bool.and_eq_true]
        apply and_congr_right
        intro hhandled
        rw [lastCloses_cons ((run_awaitingConnack hopen hne h).1 hhandled)]
      | true =>
        cases script with
        | nil => simp [run] at h
        | cons r₂ script =>
          obtain ⟨r₂, b₂⟩ := r₂
          obtain ⟨d, n, hr, h⟩ := run_cons_eq_some.mp h
          cases r₂ <;> simp only [if_true, resume, reduceCtorEq, Option.some.injEq,
            Prod.mk.injEq] at hr
          case raised e cf =>
            obtain ⟨rfl, rfl⟩ := hr
            obtain ⟨rfl, hleft⟩ := hfail rfl h
            simp [hleft, covered]
          case sent =>
            obtain ⟨rfl, rfl⟩ := hr
            rw [hdecide h]
            simp only [covered, Bool.and_eq_true]
            apply and_congr_right
            intro hhandled
            have hlen := (run_awaitingConnack hopen hne h).1 hhandled
            have hlen' : 2 ≤ ((Reply.sent, b₂) :: script).length := by simp; omega
            rw [lastCloses_cons hlen', lastCloses_cons hlen]

/-- A broker that refuses the subscription: the pipe is closed before the error. -/
theorem no_leak_refused : ∃ t, run false {} .connecting [(.pipe true, false), (.sent, false),
    (.data connack, false), (.sent, false), (.codes [0x80], false), (.done, false)] =
      some (t, .raised .connectionError) ∧ ¬ t.IsOpen 0 ∧ t.pipe ≠ some 0 := by
  have hrun : run false {} .connecting [(.pipe true, false), (.sent, false),
      (.data connack, false), (.sent, false), (.codes [0x80], false), (.done, false)] =
      some ({ pipe := none, pipes := [⟨false, true⟩] }, .raised .connectionError) := by
    decide +kernel
  exact ⟨_, hrun, (no_leak_iff {} _ _ _ (by simp) hrun).mpr (by decide)⟩

/-- Cancelled while it waits for the CONNACK, as by the timeout around it, the handshake leaves its
pipe open. -/
theorem leak_cancelled_at_connack : ∃ t, run false {} .connecting [(.pipe true, false),
    (.sent, false), (.raised .cancelledError false, false)] =
      some (t, .raised .cancelledError) ∧ t.IsOpen 0 :=
  ⟨{ pipes := [⟨true, false⟩] }, by decide +kernel, by decide⟩

end MqttConnect

end Sidewire
