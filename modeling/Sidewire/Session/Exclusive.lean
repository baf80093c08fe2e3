import Sidewire.Session.Buffer

/-! # One live pipe

The guard of `connect` looks at the dispatcher task, which is not there until a
handshake has succeeded, and at nothing else. As long as no call gets past it
while another is in its handshake, the client is closed or its pipe is open, and
as long as a pipe that is given up is closed, the packet reader listens on the
client's pipe only, and on none once the client is closed.
-/

namespace Sidewire

def Reply.fails : Reply → Bool
  | .codes returnCodes => !returnCodes.all (· == 1)
  | .raised _ _ => true
  | _ => false

namespace MqttConnect

variable {pipelined atOnce : Bool} {c d : Connection} {m m' : MqttConnect} {r : Reply} {p : ℕ}
  {exc : AwaitExc}

/-- A live pipe that the handler around the subscription gives up is closed before that handler
first suspends. -/
def ClosesPipe (c : Connection) (m : MqttConnect) (r : Reply) (atOnce : Bool) : Prop :=
  ∀ p ∈ m.registered, c.IsLive p → r.fails = true → atOnce = true

theorem fails_of_unwinding (h : m.resume pipelined c r atOnce = some (d, .unwinding p exc)) :
    r.fails = true := by
  cases m with
  | awaitingConnack q =>
    simp only [resume, handOver] at h
    split at h
    · split_ifs at h <;> cases h
    · split_ifs at h <;> cases h
    · cases h
  | awaitingSuback q =>
    simp only [resume, checkCodes] at h
    split at h
    · split_ifs at h with hcodes
      · cases h
      · simpa [Reply.fails] using hcodes
    · rfl
    · cases h
  | sendingConnect q =>
    simp only [resume] at h
    split at h
    · cases pipelined <;> cases h
    · cases h
    · cases h
  | returned q => cases h
  | raised e => cases h
  | _ =>
    simp only [resume] at h
    split at h <;> first | rfl | cases h

end MqttConnect

structure Sole (c : Connection) (f : Runner → Option MqttConnect) : Prop where
  pipe : ∀ p, c.IsLive p → c.pipe = some p
  handed : ∀ i m p, f i = some m → c.IsLive p → m.registered = some p

namespace Sole

open Session MqttConnect

variable {pipelined atOnce : Bool} {c d : Connection} {f g : Runner → Option MqttConnect}
  {i : Runner} {m m' : MqttConnect} {o : Option MqttConnect} {r : Reply} {p : ℕ}

theorem shrink (h : Sole c f) (hlive : ∀ p, d.IsLive p → c.IsLive p ∧ d.pipe = c.pipe)
    (hg : ∀ j n, g j = some n → f j = some n) : Sole d g where
  pipe p hp := (hlive p hp).2.trans (h.pipe p (hlive p hp).1)
  handed j n p hj hp := h.handed j n p (hg j n hj) (hlive p hp).1

theorem of_only (honly : ∀ j n, f j = some n → j = i) (hpipe : ∀ p, d.IsLive p → d.pipe = some p)
    (hown : ∀ n p, o = some n → d.IsLive p → n.registered = some p) :
    Sole d (Function.update f i o) where
  pipe := hpipe
  handed j n p hj hp := by
    rcases update_handshake hj with ⟨-, ho⟩ | ⟨hne, hj⟩
    · exact hown n p ho hp
    · exact absurd (honly j n hj) hne

theorem begins (honly : ∀ j n, f j = some n → j = i) (hnone : ∀ p, ¬ d.IsLive p) :
    Sole d (Function.update f i (some .connecting)) :=
  of_only honly (fun p hp => absurd hp (hnone p)) fun _ p _ hp => absurd hp (hnone p)

theorem resume (h : Sole c f) (hi : f i = some m) (honly : ∀ j n, f j = some n → j = i)
    (hcloses : m.ClosesPipe c r atOnce)
    (hr : m.resume pipelined c r atOnce = some (d, m')) :
    Sole d (Function.update f i m'.underWay) := by
  have hown : ∀ p, c.IsLive p → m.registered = some p := fun p hp => h.handed i m p hi hp
  -- the pipe of the handshake stays as it is
  have hkeep : ∀ {n : MqttConnect}, (∀ p, m.registered = some p → n.registered = some p) →
      (∀ q, d.IsLive q → c.IsLive q ∧ d.pipe = c.pipe) →
      Sole d (Function.update f i (some n)) := by
    intro n hn hd
    apply of_only honly
    · intro q hq
      exact (hd q hq).2.trans (h.pipe q (hd q hq).1)
    · rintro n' q hn' hq
      cases hn'
      exact hn q (hown q (hd q hq).1)
  have hover : (∀ q, d.IsLive q → c.IsLive q ∧ d.pipe = c.pipe) →
      Sole d (Function.update f i none) := by
    intro hd
    apply of_only honly
    · intro q hq
      exact (hd q hq).2.trans (h.pipe q (hd q hq).1)
    · intro n q hn
      cases hn
  have hstep := resume_handshakeStep hr
  cases hstep with
  | opened => exact hkeep (by simp [registered]) fun q hq => ⟨by simpa using hq, rfl⟩
  | refused => exact hover fun q hq => ⟨hq, rfl⟩
  | @sent _ m' p hm hm' =>
    have hunder : m'.underWay = some m' := by
      cases m' <;> first | rfl | cases hm'
    rw [hunder]
    refine hkeep (fun q hq => ?_) fun q hq => ⟨hq, rfl⟩
    cases m <;> cases hm <;> cases hq
  | failed => exact hover fun q hq => ⟨hq, rfl⟩
  | closing =>
    exact hkeep (by simp [registered]) fun q hq =>
      ⟨(Connection.isLive_closeIf.mp hq).2, Connection.closeIf_pipe⟩
  | @handOver m' p connackRaw chunk hm' =>
    have hunder : m'.underWay = some m' := by
      cases m' <;> first | rfl | cases hm'
    have honlyp : ∀ q, ((c.register p).receive p chunk).IsLive q → q = p := by
      intro q hq
      simp only [Connection.isLive_receive, Connection.isLive_register] at hq
      rcases hq with hq | ⟨hq, -⟩
      · cases hown q hq
      · exact hq
    rw [hunder]
    apply of_only honly
    · intro q hq
      rw [Connection.receive_pipe, honlyp q hq]
      rfl
    · rintro n q hn hq
      cases hn
      rw [honlyp q hq, hm']
  | @subscribed _ p _ hm =>
    refine hkeep (fun q hq => ?_) fun q hq => ⟨hq, rfl⟩
    rw [hm] at hq
    exact hq
  | returned => exact hover fun q hq => ⟨hq, rfl⟩
  | @unwind _ p _ exc hm =>
    have hfails : r.fails = true := fails_of_unwinding hr
    have hnone : ∀ q, ¬ (MqttConnect.unwind c p exc atOnce).1.IsLive q := by
      intro q hq
      obtain ⟨hne, hq⟩ := Connection.isLive_closeIf.mp hq
      have hqp := hown q hq
      rw [hm] at hqp
      cases hqp
      exact hne (hcloses p hm hq hfails) rfl
    exact of_only honly (fun q hq => absurd hq (hnone q)) fun _ q _ hq => absurd hq (hnone q)
  | closed =>
    exact hover fun q hq => ⟨(Connection.isLive_closeIf.mp hq).2, Connection.closeIf_pipe⟩

end Sole

def Reply.interrupts : Reply → Bool
  | .raised .cancelledError _ => true
  | _ => false

/-- The call does not end with a live pipe given up: a failed handshake closes it at once, and
`close` is neither cancelled nor let down by `pipe.close()`. -/
def ClientCall.ClosesPipe (c : Connection) (r : Reply) (atOnce : Bool) : ClientCall → Prop
  | .connect _ m _ => m.ClosesPipe c r atOnce
  | .cancelling _ _ | .disconnecting _ => r.interrupts = false
  | .closingPipe _ p => c.IsLive p → MqttConnect.closes r = true
  | .entering _ | .over _ => True

def ClientCall.isClosing : ClientCall → Bool
  | .cancelling _ _ | .disconnecting _ | .closingPipe _ _ => true
  | _ => false

namespace Session

variable {pipelined atOnce : Bool} {s t u : Session} {a : Act} {as : List Act} {k d : ℕ}
  {call : ClientCall} {r : Reply}

/-- The acts of `connect`, `try_client`, `close` and the dispatchers, and those of the network. -/
def Act.OfClient : Act → Prop
  | .routerClose | .idleClose _ => False
  | _ => True

def NoneConnecting (s : Session) : Prop := ∀ call ∈ s.calls, call.handshake = none

def Stopped (s : Session) : Prop := ∀ x ∈ s.dispatchers, x.stage = .finished

/-- What the guard of `connect` does not check. -/
def Free (s : Session) : Prop :=
  s.isClosed = false ∧ s.NoneConnecting ∧ ∀ p ∈ s.conn.pipe, ¬ s.conn.IsOpen p

def ClosesPipes (s : Session) : Act → Prop
  | .reply k r atOnce => ∀ call ∈ s.calls[k]?, call.ClosesPipe s.conn r atOnce
  | .timeout k closedFirst atOnce =>
    ∀ call ∈ s.calls[k]?, call.ClosesPipe s.conn (.raised .cancelledError closedFirst) atOnce
  | .dispatch d r atOnce =>
    ∀ x ∈ s.dispatchers[d]?, ∀ m ∈ x.stage.handshake, m.ClosesPipe s.conn r atOnce
  | _ => True

/-- No call gets past the guard but on a free client, `close` finds no call in its handshake, and
a pipe that is given up is closed. -/
structure Orderly (s : Session) (a : Act) : Prop where
  begins : s.Begins a → s.Free
  closes : a = .close → s.isClosed = false → s.NoneConnecting
  pipes : s.ClosesPipes a

/-- What holds while a call of `close` is at one of its awaits. -/
def Closing (s : Session) : ClientCall → Prop
  | .cancelling closer d => closer = .plain ∧ s.isClosed = true ∧
    ∀ e x, s.dispatchers[e]? = some x → x.stage ≠ .finished → d = some e
  | .disconnecting closer => closer = .plain ∧ s.isClosed = true ∧ s.Stopped
  | .closingPipe closer p => closer = .plain ∧ s.isClosed = true ∧ s.Stopped ∧
    ∀ q, s.conn.IsLive q → q = p
  | _ => True

/-- One task at most can go on to a new pipe, and `close` waits for it. -/
structure Exclusive (s : Session) : Prop where
  sole : Sole s.conn s.handshake
  current : ∀ e x, s.dispatchers[e]? = some x → x.stage ≠ .finished → s.dispatcherTask = some e
  alone : ∀ k m, s.handshake (.call k) = some m →
    s.isClosed = false ∧ s.Stopped ∧ ∀ j n, s.handshake (.call j) = some n → j = k
  old : ∀ x ∈ s.dispatchers, ∀ p q, x.stage = .closingOld p → ¬ s.conn.IsLive q
  closing : ∀ call ∈ s.calls, s.Closing call
  closed : s.isClosed = true →
    (∃ call ∈ s.calls, call.isClosing = true) ∨ s.Stopped ∧ ∀ q, ¬ s.conn.IsLive q

theorem handshake_of_noneConnecting (h : s.NoneConnecting) (k : ℕ) :
    s.handshake (.call k) = none := by
  rw [handshake]
  cases hk : s.calls[k]? with
  | none => rfl
  | some call => exact h call (List.mem_of_getElem? hk)

theorem handshake_of_stopped (h : s.Stopped) (d : ℕ) : s.handshake (.dispatcher d) = none := by
  rw [handshake]
  cases hd : s.dispatchers[d]? with
  | none => rfl
  | some x =>
    rw [Option.bind_some, h x (List.mem_of_getElem? hd)]
    rfl

theorem Closing.isClosed (h : s.Closing call) (hc : call.isClosing = true) : s.isClosed = true := by
  cases call with
  | cancelling => exact h.2.1
  | disconnecting => exact h.2.1
  | closingPipe => exact h.2.1
  | _ => cases hc

theorem closing_of_not (h : call.isClosing = false) : s.Closing call := by
  cases call <;> trivial

theorem Closing.mono (h : s.Closing call) (hclosed : s.isClosed = true → t.isClosed = true)
    (hdisp : ∀ (e : ℕ) (x : DispatcherTask), t.dispatchers[e]? = some x → x.stage ≠ .finished →
      ∃ y : DispatcherTask, s.dispatchers[e]? = some y ∧ y.stage ≠ .finished)
    (hlive : ∀ q, t.conn.IsLive q → s.conn.IsLive q) : t.Closing call := by
  have hstopped : s.Stopped → t.Stopped := by
    intro hs x hx
    by_contra hne
    obtain ⟨e, he⟩ := List.getElem?_of_mem hx
    obtain ⟨y, hy, hne⟩ := hdisp e x he hne
    exact hne (hs y (List.mem_of_getElem? hy))
  cases call with
  | cancelling closer d =>
    refine ⟨h.1, hclosed h.2.1, fun e x he hx => ?_⟩
    obtain ⟨y, hy, hne⟩ := hdisp e x he hx
    exact h.2.2 e y hy hne
  | disconnecting closer => exact ⟨h.1, hclosed h.2.1, hstopped h.2.2⟩
  | closingPipe closer p =>
    exact ⟨h.1, hclosed h.2.1, hstopped h.2.2.1, fun q hq => h.2.2.2 q (hlive q hq)⟩
  | _ => trivial

theorem dispatchers_connected {tried : Option ℚ} {p e : ℕ} {x : DispatcherTask}
    (h : (s.connected tried p).1.dispatchers[e]? = some x) :
    x ∈ s.dispatchers ∨ x.stage = .notStarted ∧ (s.connected tried p).1.dispatcherTask = some e := by
  simp only [connected] at h ⊢
  split_ifs at h ⊢
  · change (s.dispatchers ++ [({} : DispatcherTask)])[e]? = some x at h
    rw [List.getElem?_append] at h
    split_ifs at h with hlt
    · exact .inl (List.mem_of_getElem? h)
    · rw [List.getElem?_singleton] at h
      split_ifs at h with heq
      cases h
      have he : e = s.dispatchers.length := by omega
      exact .inr ⟨rfl, congrArg some he.symm⟩
  · exact .inl (List.mem_of_getElem? h)

namespace Exclusive

theorem only_dispatcher (h : s.Exclusive) {x : DispatcherTask} (hd : s.dispatchers[d]? = some x)
    (hx : x.stage ≠ .finished) {j : Runner} {n : MqttConnect} (hj : s.handshake j = some n) :
    j = .dispatcher d := by
  cases j with
  | call k => exact absurd ((h.alone k n hj).2.1 x (List.mem_of_getElem? hd)) hx
  | dispatcher e =>
    obtain ⟨y, hy, hyn⟩ := Option.bind_eq_some_iff.mp hj
    have hne : y.stage ≠ .finished := by
      intro hfin
      rw [hfin] at hyn
      cases hyn
    have heq := (h.current d x hd hx).symm.trans (h.current e y hy hne)
    cases heq
    rfl

theorem only_call (h : s.Exclusive) {m n : MqttConnect} (hk : s.handshake (.call k) = some m)
    {j : Runner} (hj : s.handshake j = some n) : j = .call k := by
  obtain ⟨-, hstopped, halone⟩ := h.alone k m hk
  cases j with
  | call j => rw [halone j n hj]
  | dispatcher e =>
    rw [handshake_of_stopped hstopped] at hj
    cases hj

theorem shrink (h : s.Exclusive) (hclosed : t.isClosed = s.isClosed)
    (hdisp : t.dispatchers = s.dispatchers) (hshake : t.handshake = s.handshake)
    (hlive : ∀ p, t.conn.IsLive p → s.conn.IsLive p ∧ t.conn.pipe = s.conn.pipe)
    (htask : t.dispatcherTask = s.dispatcherTask ∨ s.Stopped)
    (hcalls : ∀ call ∈ t.calls, call ∈ s.calls ∨ t.Closing call)
    (hclose : (∃ call ∈ s.calls, call.isClosing = true) →
      (∃ call ∈ t.calls, call.isClosing = true) ∨ t.Stopped ∧ ∀ q, ¬ t.conn.IsLive q) :
    t.Exclusive where
  sole := h.sole.shrink hlive fun j n hj => hshake ▸ hj
  current e x he hx := by
    rw [hdisp] at he
    rcases htask with htask | hstopped
    · exact htask.trans (h.current e x he hx)
    · exact absurd (hstopped x (List.mem_of_getElem? he)) hx
  alone k m hk := by
    rw [hshake] at hk ⊢
    rw [hclosed, Stopped, hdisp]
    exact h.alone k m hk
  old x hx p q hold hq := by
    rw [hdisp] at hx
    exact h.old x hx p q hold (hlive q hq).1
  closing call hcall := by
    rcases hcalls call hcall with hcall | hcall
    · apply Closing.mono (h.closing call hcall) (fun hc => hclosed.trans hc)
      · intro e x he hx
        rw [hdisp] at he
        exact ⟨x, he, hx⟩
      · exact fun q hq => (hlive q hq).1
    · exact hcall
  closed hc := by
    rcases h.closed (hclosed.symm.trans hc) with hex | ⟨hstopped, hnone⟩
    · exact hclose hex
    · right
      constructor
      · rw [Stopped, hdisp]
        exact hstopped
      · exact fun q hq => hnone q (hlive q hq).1

theorem of_notClosed (hclosed : t.isClosed = false) (sole : Sole t.conn t.handshake)
    (current : ∀ (e : ℕ) (x : DispatcherTask), t.dispatchers[e]? = some x → x.stage ≠ .finished →
      t.dispatcherTask = some e)
    (alone : ∀ k m, t.handshake (.call k) = some m →
      t.Stopped ∧ ∀ j n, t.handshake (.call j) = some n → j = k)
    (old : ∀ x ∈ t.dispatchers, ∀ p q, x.stage = .closingOld p → ¬ t.conn.IsLive q)
    (hcalls : ∀ call ∈ t.calls, call.isClosing = false) : t.Exclusive where
  sole := sole
  current := current
  alone k m hk := ⟨hclosed, alone k m hk⟩
  old := old
  closing call hcall := closing_of_not (hcalls call hcall)
  closed hc := by
    rw [hclosed] at hc
    cases hc

theorem not_closing (h : s.Exclusive) (hclosed : s.isClosed = false) :
    ∀ call ∈ s.calls, call.isClosing = false := by
  intro call hcall
  by_contra hc
  rw [Closing.isClosed (h.closing call hcall) (by simpa using hc)] at hclosed
  cases hclosed

theorem stopped_of_not_running (h : s.Exclusive) (hrun : s.hasRunningTask = false) :
    s.Stopped := by
  intro x hx
  by_contra hne
  obtain ⟨e, he⟩ := List.getElem?_of_mem hx
  have htask : s.task = some x := by
    rw [task, h.current e x he hne]
    exact he
  simp [hasRunningTask, htask, hne] at hrun

theorem begins (h : s.Exclusive) (hrun : s.hasRunningTask = false) (hfree : s.Free)
    (hconn : t.conn = s.conn) (hclosed : t.isClosed = s.isClosed)
    (hdisp : t.dispatchers = s.dispatchers)
    (hshake : t.handshake = Function.update s.handshake (.call k) (some .connecting))
    (hcalls : ∀ call ∈ t.calls, call ∈ s.calls ∨ call.isClosing = false) : t.Exclusive := by
  obtain ⟨hopen, hnone, hpipe⟩ := hfree
  have hstopped := h.stopped_of_not_running hrun
  have hidle : ∀ j, s.handshake j = none := by
    rintro (j | e)
    · exact handshake_of_noneConnecting hnone j
    · exact handshake_of_stopped hstopped e
  have hlive : ∀ p, ¬ s.conn.IsLive p := fun p hp => hpipe p (h.sole.pipe p hp) hp.isOpen
  have ht : t.Stopped := by
    rw [Stopped, hdisp]
    exact hstopped
  apply of_notClosed (hclosed.trans hopen)
  · rw [hshake, hconn]
    apply Sole.begins _ hlive
    intro j n hj
    rw [hidle j] at hj
    cases hj
  · intro e x he hx
    exact absurd (ht x (List.mem_of_getElem? he)) hx
  · intro i m _
    refine ⟨ht, fun j n hj => ?_⟩
    have hk : ∀ j n, t.handshake (.call j) = some n → j = k := by
      intro j n hj
      rw [hshake] at hj
      rcases update_handshake hj with ⟨heq, -⟩ | ⟨-, hj⟩
      · cases heq
        rfl
      · rw [hidle] at hj
        cases hj
    exact (hk j n hj).trans (hk i m ‹_›).symm
  · intro x hx p q hold
    rw [ht x hx] at hold
    cases hold
  · intro call hcall
    rcases hcalls call hcall with hcall | hcall
    · exact h.not_closing hopen call hcall
    · exact hcall

theorem handshakeCall {m m' : MqttConnect} (h : s.Exclusive)
    (hk : s.handshake (.call k) = some m) (hcloses : m.ClosesPipe s.conn r atOnce)
    (hm : m.resume pipelined s.conn r atOnce = some (t.conn, m'))
    (hclosed : t.isClosed = s.isClosed)
    (hshake : t.handshake = Function.update s.handshake (.call k) m'.underWay)
    (hdisp : ∀ (e : ℕ) (x : DispatcherTask), t.dispatchers[e]? = some x → x ∈ s.dispatchers ∨
      x.stage = .notStarted ∧ t.dispatcherTask = some e ∧ m'.underWay = none)
    (hcalls : ∀ call ∈ t.calls, call ∈ s.calls ∨ call.isClosing = false) : t.Exclusive := by
  obtain ⟨hopen, hstopped, halone⟩ := h.alone k m hk
  have hown : ∀ j n, t.handshake (.call j) = some n → j = k ∧ m'.underWay = some n := by
    intro j n hj
    rw [hshake] at hj
    rcases update_handshake hj with ⟨heq, hn⟩ | ⟨hne, hj⟩
    · cases heq
      exact ⟨rfl, hn⟩
    · exact absurd (congrArg Runner.call (halone j n hj)) hne
  apply of_notClosed (hclosed.trans hopen)
  · rw [hshake]
    exact h.sole.resume hk (fun j n hj => h.only_call hk hj) hcloses hm
  · intro e x he hx
    rcases hdisp e x he with hmem | ⟨-, htask, -⟩
    · exact absurd (hstopped x hmem) hx
    · exact htask
  · intro i n hi
    obtain ⟨rfl, hn⟩ := hown i n hi
    refine ⟨fun x hx => ?_, fun j n' hj => (hown j n' hj).1⟩
    obtain ⟨e, he⟩ := List.getElem?_of_mem hx
    rcases hdisp e x he with hmem | ⟨-, -, hnone⟩
    · exact hstopped x hmem
    · rw [hnone] at hn
      cases hn
  · intro x hx p q hold
    obtain ⟨e, he⟩ := List.getElem?_of_mem hx
    rcases hdisp e x he with hmem | ⟨hnew, -, -⟩
    · rw [hstopped x hmem] at hold
      cases hold
    · rw [hnew] at hold
      cases hold
  · intro call hcall
    rcases hcalls call hcall with hcall | hcall
    · exact h.not_closing hopen call hcall
    · exact hcall

theorem start (h : s.Exclusive) (hshake : call.handshake = none) (hcall : call.isClosing = false) :
    (s.start call).Exclusive := by
  have hsame : (s.start call).handshake = s.handshake := by
    have hnone : s.handshake (.call s.calls.length) = none := by simp [handshake]
    rw [handshake_start, hshake, ← hnone, Function.update_eq_self]
  refine h.shrink rfl rfl hsame (fun p hp => ⟨hp, rfl⟩) (.inl rfl) ?_ ?_
  · intro c hc
    rcases List.mem_append.mp hc with hc | hc
    · exact .inl hc
    · rw [List.mem_singleton.mp hc]
      exact .inr (closing_of_not hcall)
  · rintro ⟨c, hc, hclosing⟩
    exact .inl ⟨c, List.mem_append_left _ hc, hclosing⟩

theorem close (h : s.Exclusive) (hnone : s.isClosed = false → s.NoneConnecting) :
    (s.close .plain).Exclusive := by
  unfold Session.close
  split_ifs with hclosed
  · exact h.start rfl rfl
  · have hopen : s.isClosed = false := by simpa using hclosed
    have hnone := hnone hopen
    let u : Session := { s with isClosed := true }
    have hsame : (u.cancelTask.start (.cancelling .plain s.dispatcherTask)).handshake =
        s.handshake := by
      have hfresh : u.cancelTask.handshake (.call u.cancelTask.calls.length) = none := by
        simp [handshake]
      rw [handshake_start]
      change Function.update u.cancelTask.handshake _ none = _
      rw [← hfresh, Function.update_eq_self, handshake_cancelTask]
      rfl
    have hconn : (u.cancelTask.start (.cancelling .plain s.dispatcherTask)).conn = s.conn :=
      cancelTask_conn u
    have hdisp : ∀ (e : ℕ) (x : DispatcherTask), u.cancelTask.dispatchers[e]? = some x →
        x.stage ≠ .finished → s.dispatcherTask = some e := by
      intro e x hx hne
      obtain ⟨y, hy, hstage⟩ := stage_of_cancelTask hx
      exact h.current e y hy (hstage ▸ hne)
    have hnew : (u.cancelTask.start (.cancelling .plain s.dispatcherTask)).Closing
        (.cancelling .plain s.dispatcherTask) := ⟨rfl, cancelTask_isClosed u, hdisp⟩
    exact {
      sole := by
        rw [hsame, hconn]
        exact h.sole
      current := fun e x hx hne => (cancelTask_dispatcherTask u).trans (hdisp e x hx hne)
      alone := by
        intro k m hk
        rw [hsame, handshake_of_noneConnecting hnone] at hk
        cases hk
      old := by
        intro x hx p q hold
        obtain ⟨e, he⟩ := List.getElem?_of_mem hx
        obtain ⟨y, hy, hstage⟩ := stage_of_cancelTask he
        rw [hconn]
        exact h.old y (List.mem_of_getElem? hy) p q (hstage.trans hold)
      closing := by
        intro call hcall
        rcases List.mem_append.mp hcall with hcall | hcall
        · rw [cancelTask_calls] at hcall
          exact closing_of_not (h.not_closing hopen call hcall)
        · rw [List.mem_singleton.mp hcall]
          exact hnew
      closed := fun _ => .inl ⟨_, List.mem_append_right _ (List.mem_singleton_self _), rfl⟩ }

theorem setCall {c : ClientCall} (h : s.Exclusive) (hk : s.calls[k]? = some c)
    (hc : c.handshake = none) (hshake : call.handshake = none) (hclosed : u.isClosed = s.isClosed)
    (hdisp : u.dispatchers = s.dispatchers) (hsame : u.handshake = s.handshake)
    (huk : u.calls = s.calls)
    (hlive : ∀ p, u.conn.IsLive p → s.conn.IsLive p ∧ u.conn.pipe = s.conn.pipe)
    (htask : u.dispatcherTask = s.dispatcherTask ∨ s.Stopped)
    (hcall : (u.setCall k call).Closing call)
    (hclose : c.isClosing = true →
      call.isClosing = true ∨ s.Stopped ∧ ∀ q, ¬ u.conn.IsLive q) :
    (u.setCall k call).Exclusive := by
  have hlt := (List.getElem?_eq_some_iff.mp hk).1
  have hshake' : (u.setCall k call).handshake = s.handshake := by
    have hnone : u.handshake (.call k) = none := by
      rw [handshake, huk, hk]
      exact hc
    rw [handshake_setCall (huk ▸ hk), hshake, ← hnone, Function.update_eq_self, hsame]
  refine h.shrink hclosed hdisp hshake' hlive htask ?_ ?_
  · intro c' hc'
    rcases List.mem_or_eq_of_mem_set hc' with hc' | rfl
    · exact .inl (huk ▸ hc')
    · exact .inr hcall
  · rintro ⟨c', hc', hclosing⟩
    obtain ⟨j, hj⟩ := List.getElem?_of_mem hc'
    have hget : ∀ i, (u.setCall k call).calls[i]? =
        if i = k then some call else s.calls[i]? := by
      intro i
      simp only [Session.setCall, huk, List.getElem?_set]
      by_cases hik : i = k
      · subst hik
        simp [hlt]
      · simp [hik, Ne.symm hik]
    by_cases hjk : j = k
    · subst hjk
      rw [hk, Option.some.injEq] at hj
      subst hj
      rcases hclose hclosing with hnew | ⟨hstopped, hnone⟩
      · exact .inl ⟨call, List.mem_of_getElem? ((hget j).trans (if_pos rfl)), hnew⟩
      · right
        constructor
        · rw [Stopped]
          change ∀ x ∈ u.dispatchers, _
          rw [hdisp]
          exact hstopped
        · exact hnone
    · exact .inl ⟨c', List.mem_of_getElem? ((hget j).trans ((if_neg hjk).trans hj)), hclosing⟩

theorem stopped_of_cancelling {closer : Closer} {d : Option ℕ} (h : s.Closing (.cancelling closer d))
    (hdone : ∀ x ∈ d.bind fun d => s.dispatchers[d]?, x.stage = .finished) : s.Stopped := by
  intro x hx
  by_contra hne
  obtain ⟨e, he⟩ := List.getElem?_of_mem hx
  rw [h.2.2 e x he hne] at hdone
  exact hne (hdone x he)

theorem endClose {c : ClientCall} {closer : Closer} {conn : Connection} (res : CallResult)
    (task : Option ℕ) (h : s.Exclusive) (hk : s.calls[k]? = some c) (hc : c.handshake = none)
    (hcloser : closer = .plain) (hstopped : s.Stopped) (hnone : ∀ q, ¬ conn.IsLive q) :
    (({ s with conn, dispatcherTask := task }.released closer).setCall k (.over res)).Exclusive := by
  subst hcloser
  exact h.setCall hk hc rfl rfl rfl rfl rfl (fun p hp => absurd hp (hnone p)) (.inr hstopped) trivial
    fun _ => .inr ⟨hstopped, hnone⟩

theorem endFailed {c : ClientCall} {closer : Closer} {exc : AwaitExc} {conn : Connection}
    (h : s.Exclusive) (hk : s.calls[k]? = some c) (hc : c.handshake = none)
    (hcloser : closer = .plain) (hstopped : s.Stopped) (hnone : ∀ q, ¬ conn.IsLive q) :
    (({ s with conn } : Session).closeFailed k closer exc).Exclusive := by
  have hend := h.endClose (.failed exc) s.dispatcherTask hk hc hcloser hstopped hnone
  subst hcloser
  unfold Session.closeFailed
  split_ifs
  · exact hend
  · exact hend

theorem callStep (h : s.Exclusive) (hstep : CallStep pipelined s k atOnce r t)
    (hbegins : ∀ now, s.calls[k]? = some (.entering now) → s.hasRunningTask = false → s.Free)
    (hpipes : ∀ call ∈ s.calls[k]?, call.ClosesPipe s.conn r atOnce) : t.Exclusive := by
  have hmem : ∀ {c : ClientCall}, s.calls[k]? = some c → s.Closing c := fun hk =>
    h.closing _ (List.mem_of_getElem? hk)
  have hset : ∀ {c c' : ClientCall}, c' ∈ s.calls.set k c → c' ∈ s.calls ∨ c' = c := fun hc =>
    List.mem_or_eq_of_mem_set hc
  cases hstep with
  | @enter now hk =>
    by_cases hrun : s.hasRunningTask = true
    · have hover : s.connect (some now) = .over .client := if_pos hrun
      rw [hover]
      exact h.setCall hk rfl rfl rfl rfl rfl rfl (fun p hp => ⟨hp, rfl⟩) (.inl rfl) trivial
        fun hc => (by cases hc)
    · have hconnect : s.connect (some now) = .connect (some now) .connecting false := if_neg hrun
      have hrun : s.hasRunningTask = false := by simpa using hrun
      rw [hconnect]
      refine h.begins hrun (hbegins now hk hrun) rfl rfl rfl (handshake_setCall hk) ?_
      intro c hc
      rcases hset hc with hc | rfl
      · exact .inl hc
      · exact .inr rfl
  | @handshake tried m m' _ after _ conn hk hm hreturned hraised =>
    have hshake := handshake_call hk
    refine h.handshakeCall hshake (hpipes _ hk) hm rfl ?_ ?_ ?_
    · rw [underWay_eq hreturned hraised]
      exact handshake_setCall (s := { s with conn }) hk
    · exact fun e x he => .inl (List.mem_of_getElem? he)
    · intro c hc
      rcases hset hc with hc | rfl
      · exact .inl hc
      · exact .inr rfl
  | @connected tried m p _ _ conn hk hm =>
    have hshake := handshake_call hk
    have hm' : m.resume pipelined s.conn r atOnce = some (((({ s with conn } : Session).connected
        tried p).1.setCall k (.over (({ s with conn } : Session).connected tried p).2)).conn,
          .returned p) := by
      rw [hm]
      simp [Session.setCall]
    refine h.handshakeCall hshake (hpipes _ hk) hm' ?_ ?_ ?_ ?_
    · simp only [Session.setCall, Session.connected]
      split_ifs <;> rfl
    · rw [handshake_setCall (by simpa using hk), handshake_connected]
      rfl
    · intro e x he
      rcases dispatchers_connected he with hold | ⟨hnew, htask⟩
      · exact .inl hold
      · exact .inr ⟨hnew, htask, rfl⟩
    · intro c hc
      rw [Session.setCall, connected_calls] at hc
      rcases hset hc with hc | rfl
      · exact .inl hc
      · exact .inr rfl
  | @connectFailed tried m exc _ after _ conn hk hm =>
    have hshake := handshake_call hk
    obtain ⟨lastConnect, hs⟩ := connectFailed_fst { s with conn } tried exc after
    rw [hs]
    refine h.handshakeCall hshake (hpipes _ hk) hm rfl ?_ ?_ ?_
    · exact handshake_setCall (s := { s with conn, lastConnect }) hk
    · exact fun e x he => .inl (List.mem_of_getElem? he)
    · intro c hc
      rcases hset hc with hc | rfl
      · exact .inl hc
      · exact .inr rfl
  | @cancelled closer d hk hdone hp =>
    have hclosing := hmem hk
    apply h.endClose .closed none hk rfl hclosing.1 (stopped_of_cancelling hclosing hdone)
    intro q hq
    rw [h.sole.pipe q hq] at hp
    cases hp
  | @disconnect closer d p hk hdone hp =>
    have hclosing := hmem hk
    have hstopped := stopped_of_cancelling hclosing hdone
    exact h.setCall hk rfl rfl rfl rfl rfl rfl (fun q hq => ⟨hq, rfl⟩) (.inr hstopped)
      ⟨hclosing.1, hclosing.2.1, hstopped⟩ fun _ => .inl rfl
  | @interrupted c closer closedFirst hk hcall =>
    have hpipe := hpipes _ hk
    rcases hcall with ⟨d, rfl⟩ | rfl
    · cases hpipe
    · cases hpipe
  | @noPipe closer exc _ hk hp =>
    have hclosing := hmem hk
    have hnone : ∀ q, ¬ s.conn.IsLive q := by
      intro q hq
      rw [h.sole.pipe q hq] at hp
      cases hp
    exact h.endFailed hk rfl hclosing.1 hclosing.2.2 hnone
  | @closePipe closer p _ hk hp =>
    have hclosing := hmem hk
    refine h.setCall hk rfl rfl rfl rfl rfl rfl ?_ (.inl rfl) ?_ fun _ => .inl rfl
    · intro q hq
      exact ⟨(Connection.isLive_closeIf.mp hq).2, Connection.closeIf_pipe⟩
    · refine ⟨hclosing.1, hclosing.2.1, hclosing.2.2, fun q hq => ?_⟩
      have hlive := h.sole.pipe q (Connection.isLive_closeIf.mp hq).2
      rw [hp] at hlive
      cases hlive
      rfl
  | @closed closer p hk =>
    have hclosing := hmem hk
    apply h.endClose .closed s.dispatcherTask hk rfl hclosing.1 hclosing.2.2.1
    intro q hq
    obtain ⟨hne, hq⟩ := Connection.isLive_close.mp hq
    exact hne (hclosing.2.2.2 q hq)
  | @closeFailed closer p exc closedFirst hk =>
    have hclosing := hmem hk
    apply h.endFailed hk rfl hclosing.1 hclosing.2.2.1
    intro q hq
    obtain ⟨hne, hlive⟩ := Connection.isLive_closeIf.mp hq
    have hqp := hclosing.2.2.2 q hlive
    have hcloses : closedFirst = true := hpipes _ hk (hqp ▸ hlive)
    exact hne hcloses hqp

end Exclusive

inductive DispatcherStep (pipelined : Bool) (c : Connection) (r : Reply) (atOnce : Bool) :
    DispatcherAt → Connection → DispatcherAt → Prop where

  | stays {x y : DispatcherAt} : x.handshake = none → y.handshake = none →
      (∀ p, y = .closingOld p → c.pipe = some p ∧ ¬ c.IsOpen p) →
      DispatcherStep pipelined c r atOnce x c y

  | connects {x : DispatcherAt} : c.pipe = none →
      DispatcherStep pipelined c r atOnce x { c with buf := [] } (.connecting .connecting)

  | replaces {p : ℕ} : DispatcherStep pipelined c r atOnce (.closingOld p)
      { c.close p with buf := [] } (.connecting .connecting)

  | handshake {y : DispatcherAt} {m m' : MqttConnect} {conn : Connection} :
      m.resume pipelined c r atOnce = some (conn, m') → y.handshake = m'.underWay →
      (∀ p, y ≠ .closingOld p) →
      DispatcherStep pipelined c r atOnce (.connecting m) conn y

theorem reconnectLoop_dispatcherStep {isClosed : Bool} {c : Connection} {x : DispatcherAt}
    (hx : x.handshake = none) : DispatcherStep pipelined c r atOnce x (reconnectLoop isClosed c).1
      (reconnectLoop isClosed c).2 := by
  rw [reconnectLoop]
  split_ifs
  · exact .stays hx rfl (by simp)
  · split
    next hp => exact .connects hp
    next p hp =>
      split_ifs with hopen
      · exact .stays hx rfl (by simp)
      · refine .stays hx rfl fun q hq => ?_
        cases hq
        exact ⟨hp, hopen⟩

theorem dispatcherLoop_dispatcherStep {isClosed : Bool} {c : Connection} {x : DispatcherAt}
    (hx : x.handshake = none) : DispatcherStep pipelined c r atOnce x (dispatcherLoop isClosed c).1
      (dispatcherLoop isClosed c).2 := by
  rw [dispatcherLoop]
  split_ifs
  · exact .stays hx rfl (by simp)
  · exact reconnectLoop_dispatcherStep hx

theorem reconnectFailed_dispatcherStep {c : Connection} {x : DispatcherAt} (exc : AwaitExc)
    (hx : x.handshake = none) : DispatcherStep pipelined c r atOnce x (reconnectFailed c exc).1
      (reconnectFailed c exc).2 := by
  refine .stays hx (handshake_ite rfl rfl) fun p hp => ?_
  simp only [reconnectFailed] at hp
  split_ifs at hp

theorem resumeDispatcher_dispatcherStep {isClosed : Bool} {c conn : Connection}
    {x y : DispatcherAt} (h : resumeDispatcher pipelined isClosed c x r atOnce = some (conn, y)) :
    DispatcherStep pipelined c r atOnce x conn y := by
  cases x with
  | notStarted =>
    simp only [resumeDispatcher] at h
    split_ifs at h
    obtain ⟨rfl, rfl⟩ := Prod.mk.inj (Option.some.inj h).symm
    exact dispatcherLoop_dispatcherStep rfl
  | waiting =>
    simp only [resumeDispatcher] at h
    split at h
    · cases h
      exact .stays rfl rfl (by simp)
    · obtain ⟨rfl, rfl⟩ := Prod.mk.inj (Option.some.inj h).symm
      exact dispatcherLoop_dispatcherStep rfl
    · cases h
      exact .stays rfl rfl (by simp)
    · cases h
  | closingOld p =>
    simp only [resumeDispatcher] at h
    split at h
    · cases h
      exact .replaces
    · obtain ⟨rfl, rfl⟩ := Prod.mk.inj (Option.some.inj h).symm
      exact reconnectFailed_dispatcherStep _ rfl
    · cases h
  | connecting m =>
    simp only [resumeDispatcher] at h
    split at h
    · cases h
    next hm =>
      cases h
      exact .handshake hm rfl (by simp)
    next exc hm =>
      cases h
      refine .handshake hm (handshake_ite rfl rfl) fun p hp => ?_
      split_ifs at hp
    next m' hreturned hraised hm =>
      cases h
      exact .handshake hm (underWay_eq hreturned hraised).symm (by simp)
  | backoff =>
    simp only [resumeDispatcher] at h
    split at h
    · obtain ⟨rfl, rfl⟩ := Prod.mk.inj (Option.some.inj h).symm
      exact reconnectLoop_dispatcherStep rfl
    · obtain ⟨rfl, rfl⟩ := Prod.mk.inj (Option.some.inj h).symm
      exact reconnectFailed_dispatcherStep _ rfl
    · cases h
  | finished => cases h

theorem DispatcherStep.sole {c conn : Connection} {x y : DispatcherAt}
    {f : Runner → Option MqttConnect} {i : Runner}
    (hmove : DispatcherStep pipelined c r atOnce x conn y) (h : Sole c f)
    (honly : ∀ j n, f j = some n → j = i) (hi : f i = x.handshake)
    (hold : ∀ p q, x = .closingOld p → ¬ c.IsLive q)
    (hpipes : ∀ m ∈ x.handshake, m.ClosesPipe c r atOnce) :
    Sole conn (Function.update f i y.handshake) ∧ ∀ p q, y = .closingOld p → ¬ conn.IsLive q := by
  cases hmove with
  | stays _ hy hclosing =>
    constructor
    · rw [hy]
      exact Sole.of_only honly h.pipe fun n p hn => (by cases hn)
    · intro p q hp hq
      obtain ⟨hpipe, hopen⟩ := hclosing p hp
      rw [h.pipe q hq] at hpipe
      cases hpipe
      exact hopen hq.isOpen
  | connects hp =>
    refine ⟨Sole.begins honly fun q hq => ?_, fun p q hy => (by cases hy)⟩
    rw [h.pipe q hq] at hp
    cases hp
  | @replaces p =>
    refine ⟨Sole.begins honly fun q hq => ?_, fun p q hy => (by cases hy)⟩
    exact hold p q rfl (Connection.isLive_close.mp hq).2
  | @handshake _ m _ _ hm hy hne =>
    refine ⟨?_, fun p q hp => absurd hp (hne p)⟩
    rw [hy]
    exact h.resume hi honly (hpipes m rfl) hm

namespace Exclusive

theorem setDispatcher {x y : DispatcherTask} {conn : Connection} (h : s.Exclusive)
    (hd : s.dispatchers[d]? = some x) (hx : x.stage ≠ .finished)
    (hmove : DispatcherStep pipelined s.conn r atOnce x.stage conn y.stage)
    (hpipes : ∀ m ∈ x.stage.handshake, m.ClosesPipe s.conn r atOnce) :
    ({ s with conn, dispatchers := s.dispatchers.set d y } : Session).Exclusive := by
  have honly : ∀ j n, s.handshake j = some n → j = .dispatcher d :=
    fun j n hj => h.only_dispatcher hd hx hj
  have hshake := handshake_setDispatcher (y := y) hd conn
  have hlt := (List.getElem?_eq_some_iff.mp hd).1
  have hstopped : ¬ s.Stopped := fun hs => hx (hs x (List.mem_of_getElem? hd))
  have hget : ∀ (e : ℕ) (z : DispatcherTask), (s.dispatchers.set d y)[e]? = some z →
      e = d ∧ z = y ∨ e ≠ d ∧ s.dispatchers[e]? = some z := by
    intro e z hz
    rw [List.getElem?_set] at hz
    by_cases hed : d = e
    · subst hed
      simp only [if_true, hlt, Option.some.injEq] at hz
      exact .inl ⟨rfl, hz.symm⟩
    · rw [if_neg hed] at hz
      exact .inr ⟨Ne.symm hed, hz⟩
  have hcurrent : ∀ (e : ℕ) (z : DispatcherTask), (s.dispatchers.set d y)[e]? = some z →
      z.stage ≠ .finished → s.dispatcherTask = some e := by
    intro e z hz hne
    rcases hget e z hz with ⟨rfl, -⟩ | ⟨-, hz⟩
    · exact h.current e x hd hx
    · exact h.current e z hz hne
  obtain ⟨hsole, hold'⟩ := hmove.sole h.sole honly (handshake_dispatcher hd)
    (h.old x (List.mem_of_getElem? hd)) hpipes
  refine ⟨?_, hcurrent, ?_, ?_, ?_, ?_⟩
  · rw [hshake]
    exact hsole
  · intro k m hk
    rw [hshake, Function.update_of_ne Runner.noConfusion] at hk
    cases honly _ m hk
  · intro z hz p q hold hq
    obtain ⟨e, he⟩ := List.getElem?_of_mem hz
    have hne : z.stage ≠ .finished := by
      rw [hold]
      exact DispatcherAt.noConfusion
    rcases hget e z he with ⟨rfl, rfl⟩ | ⟨hed, he⟩
    · exact hold' p q hold hq
    · have heq := (h.current d x hd hx).symm.trans (h.current e z he hne)
      cases heq
      exact hed rfl
  · intro call hcall
    have hclosing := h.closing call hcall
    cases call with
    | cancelling closer task =>
      refine ⟨hclosing.1, hclosing.2.1, fun e z hz hne => ?_⟩
      rcases hget e z hz with ⟨rfl, -⟩ | ⟨-, hz⟩
      · exact hclosing.2.2 e x hd hx
      · exact hclosing.2.2 e z hz hne
    | disconnecting => exact absurd hclosing.2.2 hstopped
    | closingPipe => exact absurd hclosing.2.2.1 hstopped
    | _ => trivial
  · intro hc
    rcases h.closed hc with hex | ⟨hs, -⟩
    · exact .inl hex
    · exact absurd hs hstopped

theorem dispatch (h : s.Exclusive) (hstep : s.dispatch pipelined d r atOnce = some t)
    (hpipes : ∀ x ∈ s.dispatchers[d]?, ∀ m ∈ x.stage.handshake, m.ClosesPipe s.conn r atOnce) :
    t.Exclusive := by
  obtain ⟨x, conn, y, hd, rfl, hy⟩ := dispatch_eq_some hstep
  rcases hy with ⟨-, hr⟩ | ⟨-, hx, -, hy, rfl⟩
  · have hx : x.stage ≠ .finished := by
      intro hfin
      rw [hfin] at hr
      cases hr
    exact h.setDispatcher hd hx (resumeDispatcher_dispatcherStep hr) (hpipes x hd)
  · have hne : x.stage ≠ .finished := by
      rw [hx]
      exact DispatcherAt.noConfusion
    have hmove : DispatcherStep pipelined s.conn r atOnce x.stage s.conn y.stage := by
      rw [hx, hy]
      exact .stays rfl rfl (by simp)
    exact h.setDispatcher hd hne hmove (hpipes x hd)

theorem step (h : s.Exclusive) (hclient : a.OfClient) (ha : s.Orderly a)
    (hstep : s.step pipelined a = some t) : t.Exclusive := by
  have hconn : ∀ {conn : Connection}, (∀ p, conn.IsLive p → s.conn.IsLive p ∧
      conn.pipe = s.conn.pipe) → ({ s with conn } : Session).Exclusive :=
    fun hlive => h.shrink rfl rfl rfl hlive (.inl rfl) (fun _ hc => .inl hc) .inl
  cases a with
  | connect =>
    cases hstep
    by_cases hrun : s.hasRunningTask = true
    · rw [Session.connect, if_pos hrun]
      exact h.start rfl rfl
    · have hrun : s.hasRunningTask = false := by simpa using hrun
      have hconnect : s.connect none = .connect none .connecting false := by
        simp [Session.connect, hrun]
      rw [hconnect]
      refine h.begins hrun (ha.begins hrun) rfl rfl rfl (handshake_start s _) ?_
      intro c hc
      rcases List.mem_append.mp hc with hc | hc
      · exact .inl hc
      · rw [List.mem_singleton.mp hc]
        exact .inr rfl
  | tryClient now =>
    cases hstep
    rw [Session.tryClient]
    split_ifs
    · exact h.start rfl rfl
    · exact h.start rfl rfl
    · exact h.start rfl rfl
  | close =>
    cases hstep
    exact h.close (ha.closes rfl)
  | routerClose => exact hclient.elim
  | idleClose now => exact hclient.elim
  | reply k r atOnce =>
    refine h.callStep (resumeCall_callStep hstep) ?_ ha.pipes
    intro now hk hrun
    apply ha.begins
    simp [Begins, hrun, hk, ClientCall.isEntering]
  | timeout k closedFirst atOnce =>
    refine h.callStep (timeout_callStep hstep) ?_ ha.pipes
    intro now hk
    simp [Session.step, Session.timeout, hk] at hstep
  | dispatch d r atOnce => exact h.dispatch hstep ha.pipes
  | lost p =>
    cases hstep
    exact hconn fun q hq => ⟨(Connection.isLive_close.mp hq).2, rfl⟩
  | chunk p bytes =>
    obtain ⟨-, rfl⟩ := Session.step_chunk hstep
    exact hconn fun q hq => ⟨Connection.isLive_receive.mp hq, Connection.receive_pipe ..⟩
  | resume =>
    obtain rfl := Session.step_resume hstep
    have hfields := Connection.pass_fields { s.conn with reading := s.conn.reading - 1 }
    refine hconn fun q hq => ⟨?_, hfields.1⟩
    rwa [Connection.IsLive, hfields.2] at hq
  | queueMsg now =>
    cases hstep
    exact h.shrink rfl rfl rfl (fun p hp => ⟨hp, rfl⟩) (.inl rfl) (fun _ hc => .inl hc) .inl

end Exclusive

theorem isClosed_callStep (h : s.Exclusive) (hstep : CallStep pipelined s k atOnce r t) :
    t.isClosed = s.isClosed := by
  have hplain : ∀ {u : Session} {closer : Closer}, closer = .plain →
      (u.released closer).isClosed = u.isClosed := by
    rintro u closer rfl
    rfl
  have hfailed : ∀ {u : Session} {closer : Closer} {exc : AwaitExc}, closer = .plain →
      (u.closeFailed k closer exc).isClosed = u.isClosed := by
    rintro u closer exc rfl
    unfold Session.closeFailed
    split_ifs <;> rfl
  have hmem : ∀ {c : ClientCall}, s.calls[k]? = some c → s.Closing c := fun hk =>
    h.closing _ (List.mem_of_getElem? hk)
  cases hstep with
  | enter => rfl
  | handshake => rfl
  | connected =>
    simp only [Session.setCall, Session.connected]
    split_ifs <;> rfl
  | @connectFailed tried _ exc _ after _ conn =>
    obtain ⟨lastConnect, hs⟩ := connectFailed_fst { s with conn } tried exc after
    rw [hs]
    rfl
  | cancelled hk => exact hplain (hmem hk).1
  | disconnect => rfl
  | interrupted hk hcall =>
    rcases hcall with ⟨d, rfl⟩ | rfl
    · exact hfailed (hmem hk).1
    · exact hfailed (hmem hk).1
  | noPipe hk => exact hfailed (hmem hk).1
  | closePipe => rfl
  | closed hk => exact hplain (hmem hk).1
  | closeFailed hk => exact hfailed (hmem hk).1

theorem isClosed_step (h : s.Exclusive) (hclient : a.OfClient) (hstep : s.step pipelined a = some t)
    (hc : s.isClosed = true ∨ a = .close) : t.isClosed = true := by
  have hsame : a ≠ .close → t.isClosed = s.isClosed → t.isClosed = true := by
    intro ha heq
    rcases hc with hc | rfl
    · exact heq.trans hc
    · exact absurd rfl ha
  cases a with
  | close =>
    cases hstep
    unfold Session.close
    split_ifs with hclosed
    · exact hclosed
    · exact cancelTask_isClosed _
  | routerClose => exact hclient.elim
  | idleClose now => exact hclient.elim
  | reply k r atOnce =>
    exact hsame Act.noConfusion (isClosed_callStep h (resumeCall_callStep hstep))
  | timeout k closedFirst atOnce =>
    exact hsame Act.noConfusion (isClosed_callStep h (timeout_callStep hstep))
  | dispatch d r atOnce =>
    obtain ⟨x, conn, y, -, rfl, -⟩ := dispatch_eq_some hstep
    exact hsame Act.noConfusion rfl
  | chunk p bytes =>
    obtain ⟨-, rfl⟩ := Session.step_chunk hstep
    exact hsame Act.noConfusion rfl
  | resume =>
    obtain rfl := Session.step_resume hstep
    exact hsame Act.noConfusion rfl
  | _ =>
    cases hstep
    exact hsame Act.noConfusion rfl

/-- Along a run whose steps meet the condition. -/
theorem Exclusive.run : ∀ {as : List Act} {s : Session}, s.Exclusive →
    (∀ a ∈ as, a.OfClient) → Machine.Meets (Session.step pipelined) Orderly s as →
    Machine.run (Session.step pipelined) s as = some t →
    t.Exclusive ∧ (s.isClosed = true ∨ .close ∈ as → t.isClosed = true)
  | [], s, h, _, _, hrun => by
    cases hrun
    exact ⟨h, fun hc => hc.resolve_right List.not_mem_nil⟩
  | a :: as, s, h, hclient, hmeets, hrun => by
    obtain ⟨u, hstep, hrun⟩ := Machine.run_cons_eq_some.mp hrun
    have ha : a.OfClient := hclient a List.mem_cons_self
    have hu : u.Exclusive := h.step ha hmeets.1 hstep
    obtain ⟨ht, hclosed⟩ := hu.run (fun b hb => hclient b (List.mem_cons_of_mem a hb))
      (hmeets.2 u hstep) hrun
    refine ⟨ht, fun hc => hclosed ?_⟩
    rcases hc with hc | hmem
    · exact .inl (isClosed_step h ha hstep (.inl hc))
    · rcases List.mem_cons.mp hmem with rfl | hmem
      · exact .inl (isClosed_step h ha hstep (.inr rfl))
      · exact .inr hmem

instance (s : Session) : Decidable s.Free :=
  inferInstanceAs (Decidable (s.isClosed = false ∧ (∀ call ∈ s.calls, call.handshake = none) ∧
    ∀ p ∈ s.conn.pipe, ¬ s.conn.IsOpen p))

instance (c : Connection) (r : Reply) (atOnce : Bool) (m : MqttConnect) :
    Decidable (m.ClosesPipe c r atOnce) :=
  inferInstanceAs (Decidable (∀ p ∈ m.registered, c.IsLive p → r.fails = true → atOnce = true))

instance (c : Connection) (r : Reply) (atOnce : Bool) (call : ClientCall) :
    Decidable (call.ClosesPipe c r atOnce) :=
  match call with
  | .connect _ m _ => inferInstanceAs (Decidable (m.ClosesPipe c r atOnce))
  | .cancelling _ _ | .disconnecting _ => inferInstanceAs (Decidable (_ = _))
  | .closingPipe _ _ => inferInstanceAs (Decidable (_ → _))
  | .entering _ | .over _ => isTrue trivial

instance (s : Session) (a : Act) : Decidable (s.ClosesPipes a) :=
  match a with
  | .reply k r atOnce =>
    inferInstanceAs (Decidable (∀ call ∈ s.calls[k]?, call.ClosesPipe s.conn r atOnce))
  | .timeout k closedFirst atOnce =>
    inferInstanceAs (Decidable (∀ call ∈ s.calls[k]?,
      call.ClosesPipe s.conn (.raised .cancelledError closedFirst) atOnce))
  | .dispatch d r atOnce =>
    inferInstanceAs (Decidable (∀ x ∈ s.dispatchers[d]?, ∀ m ∈ x.stage.handshake,
      m.ClosesPipe s.conn r atOnce))
  | .connect | .tryClient _ | .close | .routerClose | .idleClose _ | .lost _ | .chunk .. | .resume
  | .queueMsg _ => isTrue trivial

instance (s : Session) (a : Act) : Decidable (s.Orderly a) :=
  decidable_of_iff ((s.Begins a → s.Free) ∧
      (a = .close → s.isClosed = false → ∀ call ∈ s.calls, call.handshake = none) ∧
      s.ClosesPipes a)
    ⟨fun h => ⟨h.1, h.2.1, h.2.2⟩, fun h => ⟨h.begins, h.closes, h.pipes⟩⟩

instance (a : Act) : Decidable a.OfClient :=
  match a with
  | .routerClose | .idleClose _ => isFalse id
  | .connect | .tryClient _ | .close | .reply .. | .timeout .. | .dispatch .. | .lost _ | .chunk ..
  | .resume | .queueMsg _ => isTrue trivial

end Session

end Sidewire
