import Sidewire.Session.Lifecycle

/-! # Closing a client that nobody connects

As long as no call of `connect` or `try_client` is under way, a client has at
most the one dispatcher of `dispatcher_task`. A `close` that ends without an
exception then leaves it without a dispatcher and without a pipe, and it stays
so.
-/

namespace Sidewire

namespace Session

variable {pipelined atOnce : Bool} {s t u : Session} {k : ℕ} {r : Reply} {call : ClientCall}

/-- A call that may be under way where nobody connects: a `close` waits for the dispatcher, which
may be gone by then, or is through with it. -/
def CalmCall (task : Option ℕ) : ClientCall → Prop
  | .entering _ | .connect _ _ _ => False
  | .cancelling _ d => task = d ∨ task = none
  | .disconnecting _ | .closingPipe _ _ => task = none
  | .over _ => True

instance (task : Option ℕ) (call : ClientCall) : Decidable (CalmCall task call) :=
  match call with
  | .entering _ | .connect .. => isFalse id
  | .cancelling _ _ => inferInstanceAs (Decidable (_ ∨ _))
  | .disconnecting _ | .closingPipe _ _ => inferInstanceAs (Decidable (_ = _))
  | .over _ => isTrue trivial

/-- Nobody connects the client, and only the dispatcher of `dispatcher_task` may still run. -/
structure Calm (s : Session) : Prop where
  calls : ∀ call ∈ s.calls, CalmCall s.dispatcherTask call
  dispatchers : ∀ (e : ℕ) (x : DispatcherTask), s.dispatchers[e]? = some x →
    x.stage ≠ .finished → s.dispatcherTask = some e

structure Rests (s : Session) : Prop where
  task : s.dispatcherTask = none
  pipe : s.conn.pipe = none

theorem CalmCall.none {task : Option ℕ} : ∀ {call : ClientCall}, CalmCall task call →
    CalmCall none call
  | .cancelling _ _, _ => Or.inr rfl
  | .disconnecting _, _ | .closingPipe _ _, _ => rfl
  | .over _, _ => trivial

theorem Calm.congr (h : s.Calm) (hcalls : t.calls = s.calls)
    (htask : t.dispatcherTask = s.dispatcherTask) (hd : t.dispatchers = s.dispatchers) :
    t.Calm := by
  constructor
  · rw [hcalls, htask]
    exact h.calls
  · rw [htask, hd]
    exact h.dispatchers

theorem Calm.setCall (h : s.Calm) (hcall : CalmCall s.dispatcherTask call) :
    (s.setCall k call).Calm where
  calls := by
    intro c hc
    rcases List.mem_or_eq_of_mem_set hc with hc | rfl
    · exact h.calls c hc
    · exact hcall
  dispatchers := h.dispatchers

theorem Calm.start (h : s.Calm) (hcall : CalmCall s.dispatcherTask call) :
    (s.start call).Calm where
  calls := by
    intro c hc
    rcases List.mem_append.mp hc with hc | hc
    · exact h.calls c hc
    · obtain rfl := List.mem_singleton.mp hc
      exact hcall
  dispatchers := h.dispatchers

theorem Calm.released (h : s.Calm) (closer : Closer) : (s.released closer).Calm := by
  cases closer
  · exact h
  · exact h.congr rfl rfl rfl

theorem Calm.closeFailed (h : s.Calm) (closer : Closer) (exc : AwaitExc) :
    (s.closeFailed k closer exc).Calm := by
  unfold Session.closeFailed
  split_ifs
  · exact (h.released closer).setCall trivial
  · exact h.setCall trivial

theorem Rests.released (h : s.Rests) (closer : Closer) : (s.released closer).Rests := by
  cases closer <;> exact ⟨h.task, h.pipe⟩

theorem Rests.closeFailed (h : s.Rests) (closer : Closer) (exc : AwaitExc) :
    (s.closeFailed k closer exc).Rests := by
  unfold Session.closeFailed
  split_ifs
  · exact ⟨(h.released closer).task, (h.released closer).pipe⟩
  · exact ⟨h.task, h.pipe⟩

theorem Calm.dropTask (h : s.Calm)
    (hd : ∀ (e : ℕ) (x : DispatcherTask), s.dispatchers[e]? = some x → x.stage = .finished) :
    Calm { s with dispatcherTask := none } where
  calls call hcall := (h.calls call hcall).none
  dispatchers e x hx hne := absurd (hd e x hx) hne

theorem Calm.finished {closer : Closer} {d : Option ℕ} (h : s.Calm)
    (hk : s.calls[k]? = some (.cancelling closer d))
    (hd : ∀ x ∈ d.bind fun d => s.dispatchers[d]?, x.stage = .finished) (e : ℕ)
    (x : DispatcherTask) (hx : s.dispatchers[e]? = some x) : x.stage = .finished := by
  by_contra hne
  have htask := h.dispatchers e x hx hne
  rcases h.calls _ (List.mem_of_getElem? hk) with hsame | hnone
  · apply hne
    apply hd x
    rw [← hsame, htask]
    exact hx
  · cases htask.symm.trans hnone

theorem Calm.callStep (h : s.Calm) (hstep : CallStep pipelined s k atOnce r t) :
    t.Calm ∧ (s.Rests → t.Rests) := by
  cases hstep with
  | enter hk => exact (h.calls _ (List.mem_of_getElem? hk)).elim
  | handshake hk => exact (h.calls _ (List.mem_of_getElem? hk)).elim
  | connected hk => exact (h.calls _ (List.mem_of_getElem? hk)).elim
  | connectFailed hk => exact (h.calls _ (List.mem_of_getElem? hk)).elim
  | @cancelled closer d hk hd hp =>
    constructor
    · exact ((h.dropTask (h.finished hk hd)).released closer).setCall trivial
    · intro _
      cases closer <;> exact ⟨rfl, hp⟩
  | disconnect hk hd hp =>
    refine ⟨(h.dropTask (h.finished hk hd)).setCall rfl, ?_⟩
    intro hrests
    cases hp.symm.trans hrests.pipe
  | interrupted => exact ⟨h.closeFailed _ _, fun hrests => hrests.closeFailed _ _⟩
  | noPipe => exact ⟨h.closeFailed _ _, fun hrests => hrests.closeFailed _ _⟩
  | @closePipe closer p _ hk hp =>
    have hcalm : Calm { s with conn := s.conn.closeIf atOnce p } := h.congr rfl rfl rfl
    have htask : s.dispatcherTask = none := h.calls _ (List.mem_of_getElem? hk)
    constructor
    · exact hcalm.setCall htask
    · intro hrests
      cases hp.symm.trans hrests.pipe
  | @closed closer p hk =>
    have hcalm : Calm { s with conn := { s.conn.close p with pipe := none } } :=
      h.congr rfl rfl rfl
    refine ⟨(hcalm.released closer).setCall trivial, ?_⟩
    intro hrests
    cases closer <;> exact ⟨hrests.task, rfl⟩
  | @closeFailed closer p exc closedFirst hk =>
    have hcalm : Calm { s with conn := s.conn.closeIf closedFirst p } := h.congr rfl rfl rfl
    refine ⟨hcalm.closeFailed closer exc, ?_⟩
    intro hrests
    have hconn : Rests { s with conn := s.conn.closeIf closedFirst p } :=
      ⟨hrests.task, by simpa using hrests.pipe⟩
    exact hconn.closeFailed closer exc

theorem Calm.closes {res : CallResult} (h : s.Calm) (hstep : CallStep pipelined s k atOnce r t)
    (hover : t.calls[k]? = some (.over res)) (hok : ∀ exc, res ≠ .failed exc) : t.Rests := by
  have hset : ∀ {u : Session} {c call : ClientCall}, s.calls[k]? = some c → u.calls = s.calls →
      (u.setCall k call).calls[k]? = some (.over res) → call = .over res := by
    intro u c call hk hu hcall
    have hlt := (List.getElem?_eq_some_iff.mp hk).1
    simpa [Session.setCall, hu, hlt] using hcall
  have hfailed : ∀ {u : Session} {c : ClientCall} {closer : Closer} {exc : AwaitExc},
      s.calls[k]? = some c → u.calls = s.calls →
      (u.closeFailed k closer exc).calls[k]? ≠ some (.over res) := by
    intro u c closer exc hk hu hcall
    unfold Session.closeFailed at hcall
    split_ifs at hcall
    · cases hset hk ((released_calls _ _).trans hu) hcall
      exact hok exc rfl
    · cases hset hk hu hcall
      exact hok exc rfl
  cases hstep with
  | enter hk => exact (h.calls _ (List.mem_of_getElem? hk)).elim
  | handshake hk => exact (h.calls _ (List.mem_of_getElem? hk)).elim
  | connected hk => exact (h.calls _ (List.mem_of_getElem? hk)).elim
  | connectFailed hk => exact (h.calls _ (List.mem_of_getElem? hk)).elim
  | @cancelled closer d hk hd hp => cases closer <;> exact ⟨rfl, hp⟩
  | disconnect hk => cases hset hk rfl hover
  | interrupted hk => exact absurd hover (hfailed hk rfl)
  | noPipe hk => exact absurd hover (hfailed hk rfl)
  | closePipe hk => cases hset hk rfl hover
  | @closed closer p hk =>
    have htask : s.dispatcherTask = none := h.calls _ (List.mem_of_getElem? hk)
    cases closer <;> exact ⟨htask, rfl⟩
  | closeFailed hk => exact absurd hover (hfailed hk rfl)

theorem dispatch_unfinished {d : ℕ} (h : s.dispatch pipelined d r atOnce = some t) :
    ∃ x conn y, s.dispatchers[d]? = some x ∧ x.stage ≠ .finished ∧
      t = { s with conn, dispatchers := s.dispatchers.set d y } := by
  obtain ⟨x, conn, y, hx, rfl, hy⟩ := dispatch_eq_some h
  refine ⟨x, conn, y, hx, ?_, rfl⟩
  intro hfinished
  rcases hy with ⟨-, hr⟩ | ⟨-, hstage, -⟩
  · rw [hfinished] at hr
    cases hr
  · cases hstage.symm.trans hfinished

theorem Calm.dispatch {d : ℕ} (h : s.Calm) (hstep : s.dispatch pipelined d r atOnce = some t) :
    t.Calm ∧ (s.Rests → t.Rests) := by
  obtain ⟨x, conn, y, hx, hne, rfl⟩ := dispatch_unfinished hstep
  have htask := h.dispatchers d x hx hne
  refine ⟨⟨h.calls, ?_⟩, ?_⟩
  · intro e z hz hz'
    rw [List.getElem?_set] at hz
    split_ifs at hz with heq
    · exact heq ▸ htask
    · exact h.dispatchers e z hz hz'
  · intro hrests
    cases htask.symm.trans hrests.task

theorem Calm.cancelTask (h : s.Calm) : s.cancelTask.Calm := by
  refine ⟨by simpa using h.calls, ?_⟩
  rw [cancelTask_dispatcherTask]
  intro e x hx hne
  obtain ⟨y, hy, hstage⟩ := stage_of_cancelTask hx
  apply h.dispatchers e y hy
  rw [hstage]
  exact hne

theorem Calm.close (h : s.Calm) (closer : Closer) :
    (s.close closer).Calm ∧ (s.Rests → (s.close closer).Rests) := by
  unfold Session.close
  split
  · refine ⟨(h.released closer).start trivial, ?_⟩
    intro hrests
    exact ⟨(hrests.released closer).task, (hrests.released closer).pipe⟩
  · have hcalm : Calm { s with isClosed := true } := h.congr rfl rfl rfl
    refine ⟨hcalm.cancelTask.start (Or.inl (cancelTask_dispatcherTask _)), ?_⟩
    intro hrests
    exact ⟨by simpa [Session.start] using hrests.task, by simpa [Session.start] using hrests.pipe⟩

theorem Calm.step {a : Act} (h : s.Calm) (hstep : s.step pipelined a = some t)
    (ha : a ≠ .connect) (ha' : ∀ now, a ≠ .tryClient now) : t.Calm ∧ (s.Rests → t.Rests) := by
  cases a with
  | connect => exact absurd rfl ha
  | tryClient now => exact absurd rfl (ha' now)
  | close =>
    cases hstep
    exact h.close .plain
  | routerClose =>
    cases hstep
    have hcalm : Calm { s with isClosed := false } := h.congr rfl rfl rfl
    exact ⟨(hcalm.close .plain).1, fun hrests => (hcalm.close .plain).2 ⟨hrests.task, hrests.pipe⟩⟩
  | idleClose now =>
    cases hstep
    have hcalm : Calm { s with lastSend := some (s.lastActive now) } := h.congr rfl rfl rfl
    unfold Session.idleClose
    split_ifs
    · exact ⟨h, id⟩
    · exact ⟨hcalm, fun hrests => ⟨hrests.task, hrests.pipe⟩⟩
    · exact ⟨(hcalm.close .idle).1, fun hrests => (hcalm.close .idle).2 ⟨hrests.task, hrests.pipe⟩⟩
  | reply k r atOnce => exact h.callStep (resumeCall_callStep hstep)
  | timeout k closedFirst atOnce => exact h.callStep (timeout_callStep hstep)
  | dispatch d r atOnce => exact h.dispatch hstep
  | lost p =>
    cases hstep
    exact ⟨h.congr rfl rfl rfl, fun hrests => ⟨hrests.task, hrests.pipe⟩⟩
  | chunk p bytes =>
    obtain ⟨-, rfl⟩ := Session.step_chunk hstep
    exact ⟨h.congr rfl rfl rfl, fun hrests => ⟨hrests.task, by simpa using hrests.pipe⟩⟩
  | resume =>
    obtain rfl := Session.step_resume hstep
    refine ⟨h.congr rfl rfl rfl, fun hrests => ⟨hrests.task, ?_⟩⟩
    exact (Connection.pass_fields _).1.trans hrests.pipe
  | queueMsg now =>
    cases hstep
    exact ⟨h.congr rfl rfl rfl, fun hrests => ⟨hrests.task, hrests.pipe⟩⟩

theorem Calm.all_finished (h : s.Calm) (hrests : s.Rests) {x : DispatcherTask}
    (hx : x ∈ s.dispatchers) : x.stage = .finished := by
  by_contra hne
  obtain ⟨e, he⟩ := List.getElem?_of_mem hx
  cases (h.dispatchers e x he hne).symm.trans hrests.task

structure Quiet (s t : Session) : Prop where
  task : s.dispatcherTask = none → t.dispatcherTask = none
  client : ∀ k : ℕ, t.calls[k]? = some (.over .client) →
    s.calls[k]? = some (.over .client) ∨ s.dispatcherTask ≠ none

def isClosing : ClientCall → Bool
  | .cancelling _ _ | .disconnecting _ | .closingPipe _ _ => true
  | _ => false

/-- A `close` that is through with the dispatcher. -/
def afterCancel : ClientCall → Bool
  | .disconnecting _ | .closingPipe _ _ => true
  | _ => false

/-- A connect of call `k` succeeds. -/
def Connects (s t : Session) (k : ℕ) : Prop :=
  (∃ tried m timedOut, s.calls[k]? = some (.connect tried m timedOut)) ∧
    (t.calls[k]? = some (.over .client) ∨ ∃ p, t.calls[k]? = some (.over (.pipe p)))

theorem Quiet.refl (s : Session) : Quiet s s := ⟨id, fun _ h => Or.inl h⟩

theorem Quiet.of_eq (hcalls : t.calls = s.calls) (htask : t.dispatcherTask = s.dispatcherTask) :
    Quiet s t where
  task := by rw [htask]; exact id
  client := by rw [hcalls]; exact fun _ h => Or.inl h

theorem Quiet.start (hcalls : u.calls = s.calls) (htask : u.dispatcherTask = s.dispatcherTask)
    (hcall : call = .over .client → s.dispatcherTask ≠ none) : Quiet s (u.start call) where
  task := by
    intro hs
    exact htask.trans hs
  client := by
    intro i hi
    simp only [Session.start, hcalls, List.getElem?_append] at hi
    split_ifs at hi
    · exact Or.inl hi
    · exact Or.inr (hcall (List.mem_singleton.mp (List.mem_of_getElem? hi)).symm)

theorem Quiet.setCall {c : ClientCall} (hk : s.calls[k]? = some c) (hcalls : u.calls = s.calls)
    (htask : s.dispatcherTask = none → u.dispatcherTask = none)
    (hcall : call = .over .client → s.dispatcherTask ≠ none) : Quiet s (u.setCall k call) where
  task := htask
  client := by
    intro i hi
    have hlt := (List.getElem?_eq_some_iff.mp hk).1
    simp only [Session.setCall, hcalls, List.getElem?_set, hlt, if_true] at hi
    split_ifs at hi
    · exact Or.inr (hcall (Option.some.inj hi))
    · exact Or.inl hi

theorem Quiet.closeFailed {c : ClientCall} {closer : Closer} {exc : AwaitExc}
    (hk : s.calls[k]? = some c) (hcalls : u.calls = s.calls)
    (htask : u.dispatcherTask = s.dispatcherTask) : Quiet s (u.closeFailed k closer exc) := by
  unfold Session.closeFailed
  split_ifs
  · apply Quiet.setCall hk ((released_calls _ _).trans hcalls) _ (by simp)
    cases closer <;> exact htask.trans
  · exact .setCall hk hcalls htask.trans (by simp)

theorem hasRunningTask_task (h : s.hasRunningTask = true) : s.dispatcherTask ≠ none := by
  intro hnone
  simp [hasRunningTask, Session.task, hnone] at h

theorem CallStep.quiet (h : CallStep pipelined s k atOnce r t) : Connects s t k ∨ Quiet s t := by
  cases h with
  | @enter now hk =>
    right
    apply Quiet.setCall hk rfl id
    unfold Session.connect
    split_ifs with hrunning
    · exact fun _ => hasRunningTask_task hrunning
    · simp
    · simp
  | handshake hk => exact Or.inr (.setCall hk rfl id (by simp))
  | @connected tried m p before _ conn hk =>
    left
    refine ⟨⟨_, _, _, hk⟩, ?_⟩
    have hlt := (List.getElem?_eq_some_iff.mp hk).1
    simp only [Session.setCall, connected_calls, List.getElem?_set_self hlt]
    cases tried
    · exact Or.inr ⟨_, rfl⟩
    · exact Or.inl rfl
  | @connectFailed tried m exc before after _ conn hk =>
    obtain ⟨lastConnect, hs⟩ := connectFailed_fst { s with conn } tried exc after
    rw [hs]
    right
    refine Quiet.setCall hk ?_ ?_ ?_
    · rfl
    · exact id
    unfold Session.connectFailed
    cases tried
    · simp
    · dsimp only
      split_ifs <;> simp
  | @cancelled closer _ hk =>
    right
    apply Quiet.setCall hk (by simp) _ (by simp)
    intro _
    cases closer <;> rfl
  | disconnect hk => exact Or.inr (.setCall hk rfl (fun _ => rfl) (by simp))
  | interrupted hk => exact Or.inr (.closeFailed hk rfl rfl)
  | noPipe hk => exact Or.inr (.closeFailed hk rfl rfl)
  | closePipe hk => exact Or.inr (.setCall hk rfl id (by simp))
  | @closed closer _ hk =>
    right
    apply Quiet.setCall hk (by simp) _ (by simp)
    cases closer <;> exact id
  | closeFailed hk => exact Or.inr (.closeFailed hk rfl rfl)

theorem Quiet.close (hcalls : u.calls = s.calls) (htask : u.dispatcherTask = s.dispatcherTask)
    (closer : Closer) : Quiet s (u.close closer) := by
  unfold Session.close
  split
  · apply Quiet.start ((released_calls _ _).trans hcalls) _ (by simp)
    cases closer <;> exact htask
  · exact .start ((cancelTask_calls _).trans hcalls) ((cancelTask_dispatcherTask _).trans htask)
      (by simp)

theorem quiet_step {a : Act} (h : s.step pipelined a = some t) :
    (∃ k, Connects s t k ∧ ((∃ r atOnce, a = .reply k r atOnce) ∨
      ∃ closedFirst atOnce, a = .timeout k closedFirst atOnce)) ∨ Quiet s t := by
  cases a with
  | connect =>
    cases h
    right
    apply Quiet.start rfl rfl
    unfold Session.connect
    split_ifs <;> simp_all
  | tryClient now =>
    cases h
    right
    apply Quiet.start rfl rfl
    unfold Session.tryClient
    split_ifs with htask
    · exact fun _ => htask
    · simp
    · simp
  | close =>
    cases h
    exact Or.inr (.close rfl rfl _)
  | routerClose =>
    cases h
    right
    apply Quiet.close <;> rfl
  | idleClose now =>
    cases h
    right
    unfold Session.idleClose
    split_ifs
    · exact .refl s
    · apply Quiet.of_eq <;> rfl
    · apply Quiet.close <;> rfl
  | reply k r atOnce =>
    rcases (resumeCall_callStep h).quiet with hconnects | hquiet
    · exact Or.inl ⟨k, hconnects, Or.inl ⟨r, atOnce, rfl⟩⟩
    · exact Or.inr hquiet
  | timeout k closedFirst atOnce =>
    rcases (timeout_callStep h).quiet with hconnects | hquiet
    · exact Or.inl ⟨k, hconnects, Or.inr ⟨closedFirst, atOnce, rfl⟩⟩
    · exact Or.inr hquiet
  | dispatch d r atOnce =>
    obtain ⟨x, conn, y, -, -, rfl⟩ := dispatch_unfinished h
    right
    apply Quiet.of_eq <;> rfl
  | lost p =>
    cases h
    right
    apply Quiet.of_eq <;> rfl
  | chunk p bytes =>
    obtain ⟨-, rfl⟩ := Session.step_chunk h
    right
    apply Quiet.of_eq <;> rfl
  | resume =>
    obtain rfl := Session.step_resume h
    right
    apply Quiet.of_eq <;> rfl
  | queueMsg now =>
    cases h
    right
    apply Quiet.of_eq <;> rfl

/-- What a `close` comes to, if it raises nothing but an error of the network: it was not
cancelled, and nobody has made a dispatcher meanwhile. -/
def EndsClose (s t : Session) (k : ℕ) (r : Reply) (res : CallResult) : Prop :=
  (∀ exc, res = .failed exc → exc = .osError ∨ exc = .connectionError) →
    (∀ closedFirst, r ≠ .raised .cancelledError closedFirst) ∧
      ((∀ c, s.calls[k]? = some c → afterCancel c = true → s.dispatcherTask = none) →
        t.dispatcherTask = none)

theorem closeFailed_calls {closer : Closer} {exc : AwaitExc} (h : u.calls = s.calls) :
    (u.closeFailed k closer exc).calls = s.calls.set k (.over (.failed exc)) := by
  unfold Session.closeFailed
  split_ifs <;> simp [Session.setCall, h]

theorem closeFailed_task (closer : Closer) (exc : AwaitExc) :
    (u.closeFailed k closer exc).dispatcherTask = u.dispatcherTask := by
  unfold Session.closeFailed
  split_ifs
  · cases closer <;> rfl
  · rfl

theorem CallStep.closing (h : CallStep pipelined s k atOnce r t)
    (hk : (s.calls[k]?).any isClosing = true) : ∃ call, t.calls = s.calls.set k call ∧
      (isClosing call = true ∨
        ∃ res, call = .over res ∧ res ≠ .client ∧ EndsClose s t k r res) := by
  cases h with
  | enter h' | handshake h' | connected h' | connectFailed h' =>
    rw [h'] at hk
    cases hk
  | @cancelled closer d h' =>
    refine ⟨.over .closed, by simp [Session.setCall], Or.inr ⟨.closed, rfl, by simp, ?_⟩⟩
    refine fun _ => ⟨by simp, fun _ => ?_⟩
    cases closer <;> rfl
  | disconnect h' => exact ⟨_, rfl, Or.inl rfl⟩
  | interrupted h' =>
    refine ⟨_, closeFailed_calls rfl, Or.inr ⟨_, rfl, by simp, fun hcaught => ?_⟩⟩
    rcases hcaught _ rfl with h | h <;> cases h
  | noPipe h' =>
    refine ⟨_, closeFailed_calls rfl, Or.inr ⟨_, rfl, by simp, fun hcaught => ?_⟩⟩
    rcases hcaught _ rfl with h | h <;> cases h
  | closePipe h' => exact ⟨_, rfl, Or.inl rfl⟩
  | @closed closer p h' =>
    refine ⟨.over .closed, by simp [Session.setCall], Or.inr ⟨.closed, rfl, by simp, ?_⟩⟩
    refine fun _ => ⟨by simp, ?_⟩
    intro htask
    have hnone := htask _ h' rfl
    cases closer <;> exact hnone
  | @closeFailed closer p exc closedFirst h' =>
    refine ⟨_, closeFailed_calls rfl, Or.inr ⟨_, rfl, by simp, fun hcaught => ⟨?_, ?_⟩⟩⟩
    · rintro b ⟨⟩
      rcases hcaught _ rfl with h | h <;> cases h
    · intro htask
      rw [closeFailed_task]
      exact htask _ h' rfl

end Session

end Sidewire
