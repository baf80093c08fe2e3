import Sidewire.Lib.Machine
import Sidewire.Session.Lifecycle

/-! # Connected clients have a running dispatcher

A dispatcher that ends of itself stays in `dispatcher_task` and is never
replaced. As long as no `connect` and no `try_client` comes back to such a one,
and the idle closer keeps off clients that are being closed, what they return
has a dispatcher that runs and that nobody has cancelled.
-/

namespace Sidewire

namespace Session

variable {pipelined : Bool} {s t : Session} {a : Act} {k : ℕ} {call : ClientCall} {x : DispatcherTask}

/-- The dispatcher has been created, has not ended and has not been cancelled, and its next check
does not end it. -/
def Running (s : Session) : Prop :=
  (∃ x, s.task = some x ∧ x.stage ≠ .finished ∧ x.cancel = .none) ∧
    ∀ c, (dispatcherLoop s.isClosed c).2 ≠ .finished

/-- The dispatcher has ended of itself: by an exception, or because the client was closed at one
of its checks. -/
def EndedItself (s : Session) : Prop :=
  ∃ x ∈ s.task, x.stage = .finished ∧ x.cancel = .none

/-- `connect` returns a pipe or `try_client` the client. -/
def Succeeds : CallResult → Prop
  | .pipe (some _) | .client => True
  | _ => False

def Returns (s t : Session) (r : CallResult) : Prop :=
  ∃ k : ℕ, t.calls[k]? = some (.over r) ∧ s.calls[k]? ≠ some (.over r)

def idleClosing : ClientCall → Bool
  | .cancelling .idle _ | .disconnecting .idle | .closingPipe .idle _ => true
  | _ => false

def pastCancel : ClientCall → Bool
  | .disconnecting .idle | .closingPipe .idle _ => true
  | _ => false

def awaitsSuback : ClientCall → Bool
  | .connect _ (.awaitingSuback _) _ => true
  | _ => false

/-- The idle closer's pass comes to the `close` call. -/
def IsIdle (s : Session) (now : ℚ) : Prop :=
  s.dispatcherTask ≠ none ∧ idleClientTimeout ≤ now - s.lastActive now

/-- No `try_client` finds, and no SUBACK comes to, an open client whose dispatcher ended of
itself; the idle closer passes over no client that is closed or being closed, and `Router.close`
does not overlap with it. -/
def Careful (s : Session) : Act → Prop
  | .tryClient _ => s.isClosed = false → ¬ s.EndedItself
  | .reply k r _ => s.isClosed = false → MqttConnect.grants r = true → (s.calls[k]?).any awaitsSuback = true →
      ¬ s.EndedItself
  | .idleClose now => s.isClosed = true → ¬ s.IsIdle now
  | .routerClose => ∀ call ∈ s.calls, idleClosing call = false
  | _ => True

instance (s : Session) : Decidable s.EndedItself :=
  inferInstanceAs (Decidable (∃ x ∈ s.task, x.stage = .finished ∧ x.cancel = .none))

instance (s : Session) (now : ℚ) : Decidable (s.IsIdle now) :=
  inferInstanceAs (Decidable (_ ∧ _))

instance (s : Session) (a : Act) : Decidable (Careful s a) :=
  match a with
  | .tryClient _ => inferInstanceAs (Decidable (_ → _))
  | .reply .. => inferInstanceAs (Decidable (_ → _ → _ → _))
  | .idleClose _ => inferInstanceAs (Decidable (_ → _))
  | .routerClose => inferInstanceAs (Decidable (∀ call ∈ s.calls, _))
  | .connect | .close | .timeout .. | .dispatch .. | .lost _ | .chunk .. | .resume | .queueMsg _ =>
    isTrue trivial

/-- A cancelled dispatcher is one of a closed client; the idle closer has a client to itself, and
once it is through with the dispatcher nobody cancels a new one. -/
structure Guarded (s : Session) : Prop where
  bound : ∀ d ∈ s.dispatcherTask, d < s.dispatchers.length
  cancelled : ∀ x ∈ s.task, x.cancel ≠ .none → s.isClosed = true
  idle : ∀ call ∈ s.calls, idleClosing call = true → s.isClosed = true
  past : ∀ call ∈ s.calls, pastCancel call = true → ∀ x ∈ s.task, x.cancel = .none
  single : ∀ (i j : ℕ) (c c' : ClientCall), s.calls[i]? = some c → s.calls[j]? = some c' →
    idleClosing c = true → idleClosing c' = true → i = j

theorem idleClosing_of_pastCancel {c : ClientCall} (h : pastCancel c = true) :
    idleClosing c = true := by
  cases c with
  | disconnecting closer => cases closer <;> first | rfl | cases h
  | closingPipe closer p => cases closer <;> first | rfl | cases h
  | _ => cases h

theorem guarded_init : Guarded {} where
  bound := by simp
  cancelled := by simp [task]
  idle := by simp
  past := by simp
  single := by simp

theorem Guarded.frame (h : Guarded s) (hclosed : t.isClosed = s.isClosed)
    (htask : t.dispatcherTask = s.dispatcherTask) (hd : t.dispatchers = s.dispatchers)
    (hcalls : t.calls = s.calls) : Guarded t := by
  obtain ⟨h₁, h₂, h₃, h₄, h₅⟩ := h
  rw [← htask, ← hd] at h₁
  have hx : t.task = s.task := by rw [task, task, htask, hd]
  rw [← hclosed] at h₂ h₃
  rw [← hx] at h₂ h₄
  rw [← hcalls] at h₃ h₄ h₅
  exact ⟨h₁, h₂, h₃, h₄, h₅⟩

theorem Guarded.start (h : Guarded s)
    (hidle : idleClosing call = true →
      s.isClosed = true ∧ ∀ c ∈ s.calls, idleClosing c = false)
    (hpast : pastCancel call = false) : Guarded (s.start call) where
  bound := h.bound
  cancelled := h.cancelled
  idle := by
    intro c hc hi
    rcases List.mem_append.mp hc with hc | hc
    · exact h.idle c hc hi
    · obtain rfl := List.mem_singleton.mp hc
      exact (hidle hi).1
  past := by
    intro c hc hp
    rcases List.mem_append.mp hc with hc | hc
    · exact h.past c hc hp
    · obtain rfl := List.mem_singleton.mp hc
      simp [hpast] at hp
  single := by
    intro i j c c' hi hj hc hc'
    have hcases : ∀ {i : ℕ} {c : ClientCall}, (s.calls ++ [call])[i]? = some c →
        s.calls[i]? = some c ∨ i = s.calls.length ∧ c = call := by
      intro i c hi
      rcases lt_trichotomy i s.calls.length with hlt | rfl | hgt
      · exact Or.inl (by rwa [List.getElem?_append_left hlt] at hi)
      · exact Or.inr ⟨rfl, by simpa using hi.symm⟩
      · have := (List.getElem?_eq_some_iff.mp hi).1
        simp at this
        omega
    rcases hcases hi with hold | ⟨hnew, heq⟩ <;> rcases hcases hj with hold' | ⟨hnew', heq'⟩
    · exact h.single i j c c' hold hold' hc hc'
    · cases ((hidle (heq' ▸ hc')).2 c (List.mem_of_getElem? hold)).symm.trans hc
    · cases ((hidle (heq ▸ hc)).2 c' (List.mem_of_getElem? hold')).symm.trans hc'
    · exact hnew.trans hnew'.symm

theorem Guarded.setCall (h : Guarded s) (hk : ∃ c, s.calls[k]? = some c ∧
      (idleClosing call = true → idleClosing c = true))
    (hpast : pastCancel call = true → ∀ x ∈ s.task, x.cancel = .none) :
    Guarded (s.setCall k call) where
  bound := h.bound
  cancelled := h.cancelled
  idle := by
    intro c hc hi
    rcases List.mem_or_eq_of_mem_set hc with hc | rfl
    · exact h.idle c hc hi
    · obtain ⟨c', hc', himp⟩ := hk
      exact h.idle c' (List.mem_of_getElem? hc') (himp hi)
  past := by
    intro c hc hp
    rcases List.mem_or_eq_of_mem_set hc with hc | rfl
    · exact h.past c hc hp
    · exact hpast hp
  single := by
    obtain ⟨c₀, hk, himp⟩ := hk
    have hcases : ∀ {i : ℕ} {c : ClientCall}, (s.calls.set k call)[i]? = some c →
        idleClosing c = true → ∃ c', s.calls[i]? = some c' ∧ idleClosing c' = true := by
      intro i c hi hc
      rw [List.getElem?_set] at hi
      split_ifs at hi with heq hlt
      · cases hi
        exact ⟨c₀, heq ▸ hk, himp hc⟩
      · exact ⟨c, hi, hc⟩
    intro i j c c' hi hj hc hc'
    obtain ⟨d, hd, hdi⟩ := hcases hi hc
    obtain ⟨d', hd', hdi'⟩ := hcases hj hc'
    exact h.single i j d d' hd hd' hdi hdi'

theorem Guarded.released (h : Guarded s) (closer : Closer) {c : ClientCall} {r : CallResult}
    (hk : s.calls[k]? = some c) (hc : closer = .idle → idleClosing c = true)
    (hx : closer = .idle → ∀ x ∈ s.task, x.cancel = .none) :
    Guarded ((s.released closer).setCall k (.over r)) := by
  cases closer with
  | plain => exact h.setCall ⟨c, hk, by simp [idleClosing]⟩ (by simp [pastCancel])
  | idle =>
    have hnone : ∀ c' ∈ s.calls.set k (.over r), idleClosing c' = false := by
      intro c' hc'
      obtain ⟨i, hi⟩ := List.getElem?_of_mem hc'
      rw [List.getElem?_set] at hi
      split_ifs at hi with heq hlt
      · cases hi
        rfl
      · by_contra hidle
        exact heq (h.single k i c c' hk hi (hc rfl) (by simpa using hidle))
    refine ⟨h.bound, ?_, ?_, ?_, ?_⟩
    · intro x hx' hne
      exact absurd (hx rfl x hx') hne
    · intro c' hc' hi
      simp [hnone c' hc'] at hi
    · intro c' _ _
      exact hx rfl
    · intro i j c' c'' hi _ hc'
      simp [hnone c' (List.mem_of_getElem? hi)] at hc'

theorem Guarded.createDispatcher (h : Guarded s) : Guarded s.createDispatcher := by
  have htask : ∀ x ∈ s.createDispatcher.task, x.cancel = .none := by
    intro x hx
    simp only [task, Session.createDispatcher, Option.bind_some, List.getElem?_concat_length,
      Option.mem_some_iff] at hx
    exact hx ▸ rfl
  refine ⟨?_, ?_, h.idle, fun _ _ _ => htask, h.single⟩
  · intro d hd
    obtain rfl : s.dispatchers.length = d := Option.some.inj hd
    simp [Session.createDispatcher]
  · intro x hx hne
    exact absurd (htask x hx) hne

theorem Guarded.dropTask (h : Guarded s) : Guarded { s with dispatcherTask := none } where
  bound := by simp
  cancelled := by simp [task]
  idle := h.idle
  past := by simp [task]
  single := h.single

theorem Guarded.cancelTask (h : Guarded s) (hidle : ∀ c ∈ s.calls, idleClosing c = false) :
    Guarded { s with isClosed := true }.cancelTask := by
  have hcalls : ({ s with isClosed := true } : Session).cancelTask.calls = s.calls :=
    cancelTask_calls _
  have hclosed : ({ s with isClosed := true } : Session).cancelTask.isClosed = true :=
    cancelTask_isClosed _
  refine ⟨?_, fun _ _ _ => hclosed, fun _ _ _ => hclosed, ?_, ?_⟩
  · rw [Session.cancelTask]
    split
    next h' =>
      intro d hd
      cases hd.symm.trans h'
    next d hd =>
      intro d' hd'
      rw [List.length_modify]
      exact h.bound d' hd'
  · intro c hc hp
    rw [hcalls] at hc
    cases (hidle c hc).symm.trans (idleClosing_of_pastCancel hp)
  · intro i j c c' hi _ hc
    rw [hcalls] at hi
    simp [hidle c (List.mem_of_getElem? hi)] at hc

theorem Guarded.startClose {closer : Closer} (h : Guarded s)
    (hidle : ∀ c ∈ s.calls, idleClosing c = false) :
    Guarded (({ s with isClosed := true }.cancelTask).start
      (.cancelling closer s.dispatcherTask)) := by
  have hcancel := h.cancelTask hidle
  apply hcancel.start _ rfl
  intro _
  rw [cancelTask_calls, cancelTask_isClosed]
  exact ⟨rfl, hidle⟩

theorem Guarded.callStep {atOnce : Bool} {r : Reply} (h : Guarded s)
    (hstep : CallStep pipelined s k atOnce r t) : Guarded t := by
  have hconn : ∀ conn, Guarded { s with conn } := fun _ => h.frame rfl rfl rfl rfl
  cases hstep with
  | enter hk =>
    apply h.setCall ⟨_, hk, ?_⟩ ?_ <;> simp only [Session.connect] <;> split <;>
      simp [idleClosing, pastCancel]
  | handshake hk _ _ _ =>
    exact (hconn _).setCall ⟨_, hk, by simp [idleClosing]⟩ (by simp [pastCancel])
  | @connected _ _ _ _ _ conn hk _ =>
    simp only [Session.connected]
    split
    · exact (hconn conn).createDispatcher.setCall ⟨_, hk, by simp [idleClosing]⟩
        (by simp [pastCancel])
    · exact (hconn conn).setCall ⟨_, hk, by simp [idleClosing]⟩ (by simp [pastCancel])
  | @connectFailed tried _ exc _ after _ conn hk _ =>
    obtain ⟨lastConnect, hfailed⟩ := connectFailed_fst { s with conn } tried exc after
    rw [hfailed]
    have hs : Guarded { s with conn, lastConnect } := h.frame rfl rfl rfl rfl
    exact hs.setCall ⟨_, hk, by simp [idleClosing]⟩ (by simp [pastCancel])
  | @cancelled closer _ hk _ _ =>
    apply h.dropTask.released closer hk
    · rintro rfl
      rfl
    · simp [task]
  | @disconnect closer _ _ hk _ _ =>
    apply h.dropTask.setCall ⟨_, hk, ?_⟩
    · simp [task]
    · cases closer <;> simp [idleClosing]
  | interrupted hk _ => exact h.setCall ⟨_, hk, by simp [idleClosing]⟩ (by simp [pastCancel])
  | noPipe hk _ => exact h.setCall ⟨_, hk, by simp [idleClosing]⟩ (by simp [pastCancel])
  | @closePipe closer p _ hk _ =>
    apply (hconn (s.conn.closeIf atOnce p)).setCall ⟨_, hk, ?_⟩
    · intro hp
      apply h.past _ (List.mem_of_getElem? hk)
      cases closer
      · cases hp
      · rfl
    · cases closer <;> simp [idleClosing]
  | @closed closer p hk =>
    apply (hconn { s.conn.close p with pipe := none }).released closer hk
    · rintro rfl
      rfl
    · rintro rfl
      exact h.past _ (List.mem_of_getElem? hk) rfl
  | @closeFailed closer p exc closedFirst hk =>
    rw [Session.closeFailed]
    split_ifs
    · apply (hconn (s.conn.closeIf closedFirst p)).released closer hk
      · rintro rfl
        rfl
      · rintro rfl
        exact h.past _ (List.mem_of_getElem? hk) rfl
    · exact (hconn _).setCall ⟨_, hk, by simp [idleClosing]⟩ (by simp [pastCancel])

theorem Guarded.dispatch {d : ℕ} {r : Reply} {atOnce : Bool} (h : Guarded s)
    (hstep : s.dispatch pipelined d r atOnce = some t) : Guarded t := by
  obtain ⟨x, conn, y, hx, rfl, hy⟩ := dispatch_eq_some hstep
  have hxy : y.cancel = .none ↔ x.cancel = .none := by
    rcases hy with ⟨⟨hc, -⟩ | ⟨hc, hc'⟩, -⟩ | ⟨hc, -, hc', -⟩
    · rw [hc]
    · simp [hc, hc']
    · simp [hc, hc']
  have htask : ∀ z ∈ ({ s with conn, dispatchers := s.dispatchers.set d y } : Session).task,
      ∃ w ∈ s.task, z.cancel = .none ↔ w.cancel = .none := by
    intro z hz
    obtain ⟨e, he, hz⟩ := Option.bind_eq_some_iff.mp hz
    simp only [List.getElem?_set] at hz
    split_ifs at hz with heq hlt
    · obtain rfl : y = z := Option.some.inj hz
      exact ⟨x, Option.bind_eq_some_iff.mpr ⟨e, he, heq ▸ hx⟩, hxy⟩
    · exact ⟨z, Option.bind_eq_some_iff.mpr ⟨e, he, hz⟩, Iff.rfl⟩
  refine ⟨?_, ?_, h.idle, ?_, h.single⟩
  · simpa using h.bound
  · intro z hz hne
    obtain ⟨w, hw, hiff⟩ := htask z hz
    exact h.cancelled w hw (mt hiff.mpr hne)
  · intro c hc hp z hz
    obtain ⟨w, hw, hiff⟩ := htask z hz
    exact hiff.mpr (h.past c hc hp w hw)

theorem Guarded.close {closer : Closer} (h : Guarded s)
    (hidle : closer = .idle → s.isClosed = false) : Guarded (s.close closer) := by
  rw [Session.close]
  split_ifs with hclosed
  · cases closer with
    | plain => exact h.start (by simp [idleClosing]) rfl
    | idle => simp [hidle rfl] at hclosed
  · have hnone : ∀ c ∈ s.calls, idleClosing c = false := by
      intro c hc
      by_contra hi
      exact hclosed (h.idle c hc (by simpa using hi))
    exact Guarded.startClose h hnone

theorem idleClosing_connect (s : Session) (tried : Option ℚ) :
    idleClosing (s.connect tried) = false := by
  rw [Session.connect]
  split <;> rfl

theorem idleClosing_tryClient (s : Session) (now : ℚ) : idleClosing (s.tryClient now) = false := by
  rw [Session.tryClient]
  split_ifs <;> rfl

theorem Guarded.startOther (h : Guarded s) (hcall : idleClosing call = false) :
    Guarded (s.start call) := by
  apply h.start
  · simp [hcall]
  · by_contra hp
    cases hcall.symm.trans (idleClosing_of_pastCancel (by simpa using hp))

theorem Guarded.idleClose {now : ℚ} (h : Guarded s) (hp : s.isClosed = true → ¬ s.IsIdle now) :
    Guarded (s.idleClose now) := by
  have hs : Guarded { s with lastSend := some (s.lastActive now) } := h.frame rfl rfl rfl rfl
  rw [Session.idleClose]
  split_ifs with htask hactive
  · exact h
  · exact hs
  · apply hs.close
    intro _
    by_contra hclosed
    exact hp (by simpa using hclosed) ⟨htask, le_of_not_gt hactive⟩

theorem Guarded.step (h : Guarded s) (hp : Careful s a) (hs : step pipelined s a = some t) :
    Guarded t := by
  cases a with
  | connect =>
    cases hs
    exact h.startOther (idleClosing_connect s none)
  | tryClient now =>
    cases hs
    exact h.startOther (idleClosing_tryClient s now)
  | close =>
    cases hs
    exact h.close (by simp)
  | routerClose =>
    cases hs
    exact h.startClose hp
  | idleClose now =>
    cases hs
    exact h.idleClose hp
  | reply k r atOnce => exact h.callStep (resumeCall_callStep hs)
  | timeout k closedFirst atOnce => exact h.callStep (timeout_callStep hs)
  | dispatch d r atOnce => exact h.dispatch hs
  | lost p =>
    cases hs
    exact h.frame rfl rfl rfl rfl
  | chunk p bytes =>
    obtain ⟨-, rfl⟩ := Session.step_chunk hs
    exact h.frame rfl rfl rfl rfl
  | resume =>
    obtain rfl := Session.step_resume hs
    exact h.frame rfl rfl rfl rfl
  | queueMsg now =>
    cases hs
    exact h.frame rfl rfl rfl rfl

variable {r : CallResult}

theorem over_of_start {u : Session} (h : u.calls = s.calls) (hr : Returns s (u.start call) r) :
    call = .over r := by
  obtain ⟨k, hk, hne⟩ := hr
  rw [Session.start, h] at hk
  rcases lt_trichotomy k s.calls.length with hlt | rfl | hgt
  · rw [List.getElem?_append_left hlt] at hk
    exact absurd hk hne
  · simpa using hk
  · have := (List.getElem?_eq_some_iff.mp hk).1
    simp at this
    omega

theorem over_of_setCall {u : Session} (h : u.calls = s.calls) (hr : Returns s (u.setCall k call) r) :
    call = .over r := by
  obtain ⟨j, hj, hne⟩ := hr
  rw [Session.setCall, h, List.getElem?_set] at hj
  split_ifs at hj
  · exact Option.some.inj hj
  · exact absurd hj hne

theorem not_returns (h : t.calls = s.calls) : ¬ Returns s t r := by
  rintro ⟨k, hk, hne⟩
  exact hne (h ▸ hk)

theorem not_succeeds_connectFailed (s : Session) (tried : Option ℚ) (exc : AwaitExc) (b : Bool) :
    ¬ Succeeds (s.connectFailed tried exc b).2 := by
  cases tried with
  | none => exact id
  | some now =>
    simp only [Session.connectFailed]
    split_ifs <;> exact id

theorem Guarded.running (h : Guarded s) (hopen : s.isClosed = false) (htask : s.dispatcherTask ≠ none)
    (hended : ¬ s.EndedItself) : s.Running := by
  obtain ⟨d, hd⟩ := Option.ne_none_iff_exists'.mp htask
  have hlt : d < s.dispatchers.length := h.bound d hd
  have hx : s.task = some s.dispatchers[d] := by
    rw [task, hd]
    exact List.getElem?_eq_getElem hlt
  have hcancel : s.dispatchers[d].cancel = .none := by
    by_contra hne
    cases hopen.symm.trans (h.cancelled _ hx hne)
  refine ⟨⟨_, hx, ?_, hcancel⟩, ?_⟩
  · intro hfinished
    exact hended ⟨_, hx, hfinished, hcancel⟩
  · intro c
    rw [dispatcherLoop, hopen, reconnectLoop]
    cases c.pipe with
    | none => simp
    | some p =>
      simp only [Bool.false_eq_true, if_false]
      split <;> simp

theorem connect_eq_over {tried : Option ℚ} (h : s.connect tried = .over r) :
    s.dispatcherTask ≠ none ∧ ¬ s.EndedItself := by
  rw [Session.connect] at h
  split at h
  next hrun =>
    obtain ⟨x, hx, hstage⟩ := (Option.any_eq_true _ _).mp hrun
    constructor
    · intro hnone
      simp [task, hnone] at hx
    · rintro ⟨y, hy, hfinished, -⟩
      obtain rfl : x = y := Option.some.inj (hx.symm.trans hy)
      simp [hfinished] at hstage
  · cases h

theorem connected_task (tried : Option ℚ) (p : ℕ) (h : ¬ s.EndedItself) :
    (s.connected tried p).1.dispatcherTask ≠ none ∧ ¬ (s.connected tried p).1.EndedItself := by
  simp only [Session.connected]
  split
  · constructor
    · simp [Session.createDispatcher]
    · simp [EndedItself, task, Session.createDispatcher]
  next hsome => exact ⟨hsome, h⟩

theorem not_succeeds_close {b : Bool} {lastSend : Option ℚ} {closer : Closer}
    (hr : Returns s ({ s with isClosed := b, lastSend }.close closer) r) : ¬ Succeeds r := by
  rw [Session.close] at hr
  split at hr
  · cases over_of_start (released_calls ..) hr
    exact id
  · cases over_of_start (cancelTask_calls _) hr

/-- A call that returns a client or a pipe finds or creates a dispatcher task; one that did not end
of itself runs. -/
theorem Guarded.callStep_running {atOnce : Bool} {reply : Reply} (h : Guarded t)
    (hsuback : s.isClosed = false → MqttConnect.grants reply = true →
      (s.calls[k]?).any awaitsSuback = true → ¬ s.EndedItself)
    (hstep : CallStep pipelined s k atOnce reply t) (hr : Returns s t r) (hok : Succeeds r)
    (hopen : t.isClosed = false) : t.Running := by
  cases hstep with
  | enter hk =>
    obtain ⟨htask, hended⟩ := connect_eq_over (over_of_setCall rfl hr)
    exact h.running hopen htask hended
  | handshake => cases over_of_setCall rfl hr
  | @connected tried m p before _ conn hk hm =>
    cases MqttConnect.resume_handshakeStep hm with
    | sent _ h => cases h
    | handOver h => cases h
    | returned hgrants =>
      have hopen' : s.isClosed = false := by
        simp only [Session.connected] at hopen
        split at hopen <;> exact hopen
      have hended : ¬ ({ s with conn := s.conn } : Session).EndedItself :=
        hsuback hopen' hgrants (by simp [hk, awaitsSuback])
      obtain ⟨htask, hended⟩ := connected_task tried p hended
      exact h.running hopen htask hended
  | @connectFailed tried m exc before after reply conn hk hm =>
    obtain ⟨_, hs⟩ := connectFailed_fst { s with conn } tried exc after
    have hcall := over_of_setCall (by rw [hs]) hr
    exact (not_succeeds_connectFailed _ _ _ _ (ClientCall.over.inj hcall ▸ hok)).elim
  | cancelled =>
    cases over_of_setCall (released_calls ..) hr
    exact hok.elim
  | disconnect => cases over_of_setCall rfl hr
  | closePipe => cases over_of_setCall rfl hr
  | closed =>
    cases over_of_setCall (released_calls ..) hr
    exact hok.elim
  | interrupted | noPipe =>
    cases over_of_setCall (by split_ifs <;> simp) hr
    exact hok.elim
  | closeFailed =>
    cases over_of_setCall (by split_ifs <;> simp) hr
    exact hok.elim

/-- Whenever a step of such a run returns a client or a pipe of an open client, the dispatcher is
running. -/
theorem connected_has_running_dispatcher (pipelined : Bool) (as : List Act) (a : Act)
    (s t : Session) (r : CallResult) (hm : Machine.Meets (Session.step pipelined) Careful {} as)
    (hs : Machine.run (Session.step pipelined) {} as = some s) (ha : Careful s a)
    (hstep : s.step pipelined a = some t) (hr : Returns s t r) (hok : Succeeds r)
    (hopen : t.isClosed = false) : t.Running := by
  have hguard : Guarded s :=
    Machine.run_invariant (fun _ _ _ h hp hs => h.step hp hs) guarded_init hm hs
  have h : Guarded t := hguard.step ha hstep
  cases a with
  | connect =>
    cases hstep
    obtain ⟨htask, hended⟩ := connect_eq_over (over_of_start rfl hr)
    exact h.running hopen htask hended
  | tryClient now =>
    cases hstep
    have hcall := over_of_start rfl hr
    rw [Session.tryClient] at hcall
    split_ifs at hcall with htask hrecent
    · exact h.running hopen htask (ha hopen)
    · cases hcall
      exact hok.elim
  | close =>
    cases hstep
    exact absurd hok (not_succeeds_close hr)
  | routerClose =>
    cases hstep
    exact absurd hok (not_succeeds_close hr)
  | idleClose now =>
    cases hstep
    rw [Session.idleClose] at hr
    split_ifs at hr
    · exact absurd hr (not_returns rfl)
    · exact absurd hr (not_returns rfl)
    · exact absurd hok (not_succeeds_close hr)
  | reply k reply atOnce => exact h.callStep_running ha (resumeCall_callStep hstep) hr hok hopen
  | timeout k closedFirst atOnce =>
    exact h.callStep_running (by simp [MqttConnect.grants]) (timeout_callStep hstep) hr hok hopen
  | dispatch d reply atOnce =>
    obtain ⟨x, conn, y, -, rfl, -⟩ := dispatch_eq_some hstep
    exact absurd hr (not_returns rfl)
  | lost p =>
    cases hstep
    exact absurd hr (not_returns rfl)
  | chunk p bytes =>
    obtain ⟨-, rfl⟩ := Session.step_chunk hstep
    exact absurd hr (not_returns rfl)
  | resume =>
    obtain rfl := Session.step_resume hstep
    exact absurd hr (not_returns rfl)
  | queueMsg now =>
    cases hstep
    exact absurd hr (not_returns rfl)

def upToSuback (k : ℕ) : List Act :=
  [.reply k (.pipe true) false, .reply k .sent false, .reply k (.data MqttConnect.connack) false,
    .reply k .sent false]

/-- The client in its first `connect`, before the SUBACK and after it. -/
def subscribing : Session where
  conn := { pipe := some 0, pipes := [⟨true, true⟩] }
  calls := [.connect none (.awaitingSuback 0) false]

def subscribed : Session where
  conn := { pipe := some 0, pipes := [⟨true, true⟩] }
  dispatcherTask := some 0
  dispatchers := [{}]
  calls := [.over (.pipe (some 0))]

theorem running_first_connect :
    Machine.run (Session.step false) {} (.connect :: upToSuback 0) = some subscribing ∧
      subscribing.step false (.reply 0 (.codes [1]) false) = some subscribed ∧
      Returns subscribing subscribed (.pipe (some 0)) ∧ subscribed.Running := by
  have hs : Machine.run (Session.step false) {} (.connect :: upToSuback 0) = some subscribing := by
    decide +kernel
  have hstep : subscribing.step false (.reply 0 (.codes [1]) false) = some subscribed := by
    decide +kernel
  have hr : Returns subscribing subscribed (.pipe (some 0)) := ⟨0, rfl, by simp [subscribing]⟩
  exact ⟨hs, hstep, hr, connected_has_running_dispatcher false _ _ _ _ _ (by decide +kernel) hs
    (by decide +kernel) hstep hr trivial rfl⟩

def unsupportedFamily : AwaitExc := .other (.valueError "NIC does not support address family")

/-- The connection is lost, and the reconnect ends the dispatcher with an error that is not one of
the network: `try_client` returns the client all the same. -/
theorem not_running_after_escaped_exception : ∃ s t,
    Machine.run (Session.step false) {} (.connect :: upToSuback 0 ++
      [.reply 0 (.codes [1]) false, .dispatch 0 .done false, .lost 0, .dispatch 0 .done false,
        .dispatch 0 .done false, .dispatch 0 (.raised unsupportedFamily false) false]) = some s ∧
      s.step false (.tryClient 1) = some t ∧ Returns s t .client ∧ t.isClosed = false ∧
      ¬ t.Running := by
  let ended : Session := { subscribed with
    conn := { pipe := some 0, pipes := [⟨false, true⟩] }
    dispatchers := [{ stage := .finished }] }
  refine ⟨ended, { ended with calls := [.over (.pipe (some 0)), .over .client] },
    by decide +kernel, by decide +kernel, ⟨1, rfl, by simp [ended, subscribed]⟩, rfl, ?_⟩
  rintro ⟨⟨x, hx, hstage, -⟩, -⟩
  obtain rfl : ({ stage := .finished } : DispatcherTask) = x := Option.some.inj hx
  exact hstage rfl

end Session

end Sidewire
