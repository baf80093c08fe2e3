import Sidewire.Session.Lifecycle

/-! # Connections and handshakes

What the steps of a client do to its connection state and to the handshakes that
are under way, whoever runs them: a handshake begins or comes to its next await,
a pipe is closed, a chunk arrives, or nothing of the kind happens.
-/

namespace Sidewire

inductive Runner
  | call (k : ℕ)
  | dispatcher (d : ℕ)
  deriving DecidableEq, Repr

def ClientCall.handshake : ClientCall → Option MqttConnect
  | .connect _ m _ => some m
  | _ => none

def ClientCall.isEntering : ClientCall → Bool
  | .entering _ => true
  | _ => false

def DispatcherAt.handshake : DispatcherAt → Option MqttConnect
  | .connecting m => some m
  | _ => none

def MqttConnect.underWay : MqttConnect → Option MqttConnect
  | .returned _ | .raised _ => none
  | m => some m

namespace Session

variable {pipelined : Bool} {s t : Session} {a : Act} {k : ℕ} {call : ClientCall}

def handshake (s : Session) : Runner → Option MqttConnect
  | .call k => s.calls[k]?.bind ClientCall.handshake
  | .dispatcher d => s.dispatchers[d]?.bind fun x => x.stage.handshake

/-- `connect` or `try_client` gets past the re-entry guard. -/
def Begins (s : Session) : Act → Prop
  | .connect => s.hasRunningTask = false
  | .reply k _ _ => s.hasRunningTask = false ∧ (s.calls[k]?).any ClientCall.isEntering = true
  | _ => False

instance (s : Session) (a : Act) : Decidable (s.Begins a) :=
  match a with
  | .connect => inferInstanceAs (Decidable (_ = _))
  | .reply .. => inferInstanceAs (Decidable (_ ∧ _))
  | .tryClient _ | .close | .routerClose | .idleClose _ | .timeout .. | .dispatch .. | .lost _
  | .chunk .. | .resume | .queueMsg _ => isFalse id

inductive Move (s : Session) (a : Act) : Connection → (Runner → Option MqttConnect) → Prop where

  | quiet : Move s a s.conn s.handshake

  | begins {i : Runner} : s.Begins a →
      Move s a s.conn (Function.update s.handshake i (some .connecting))

  | reconnects {d p : ℕ} {b : Bool} : s.conn.pipe = none ∨ b = true →
      Move s a { s.conn.closeIf b p with buf := [] }
        (Function.update s.handshake (.dispatcher d) (some .connecting))

  | handshake {i : Runner} {m m' : MqttConnect} {r : Reply} {atOnce : Bool} {conn : Connection} :
      s.handshake i = some m → MqttConnect.HandshakeStep s.conn atOnce m r conn m' →
      Move s a conn (Function.update s.handshake i m'.underWay)

  | closes {b : Bool} {p : ℕ} : Move s a (s.conn.closeIf b p) s.handshake

  | closed {closer : Closer} {p : ℕ} : .closingPipe closer p ∈ s.calls →
      Move s a { s.conn.close p with pipe := none } s.handshake

  | chunk {p : ℕ} {bytes : Bytes} : s.conn.IsLive p → Move s a (s.conn.receive p bytes) s.handshake

  | resumes {reading : ℕ} : Move s a ({ s.conn with reading } : Connection).pass s.handshake

theorem handshake_start (s : Session) (call : ClientCall) :
    (s.start call).handshake =
      Function.update s.handshake (.call s.calls.length) call.handshake := by
  ext i : 1
  rw [Function.update_apply]
  cases i with
  | dispatcher d => simp [handshake, start]
  | call j =>
    simp only [handshake, start, Runner.call.injEq]
    rcases lt_trichotomy j s.calls.length with hlt | rfl | hgt
    · rw [List.getElem?_append_left hlt, if_neg hlt.ne]
    · simp
    · have hnone : (s.calls ++ [call])[j]? = none := by simp; omega
      have hnone' : s.calls[j]? = none := by simp; omega
      rw [hnone, hnone', if_neg hgt.ne']

theorem handshake_setCall {c : ClientCall} (hk : s.calls[k]? = some c) :
    (s.setCall k call).handshake = Function.update s.handshake (.call k) call.handshake := by
  ext i : 1
  rw [Function.update_apply]
  cases i with
  | dispatcher d => simp [handshake, setCall]
  | call j =>
    simp only [handshake, setCall, Runner.call.injEq, List.getElem?_set]
    have hlt := (List.getElem?_eq_some_iff.mp hk).1
    by_cases h : j = k
    · simp [h, hlt]
    · simp [h, Ne.symm h]

theorem handshake_setDispatcher {d : ℕ} {x y : DispatcherTask} (hd : s.dispatchers[d]? = some x)
    (conn : Connection) :
    ({ s with conn, dispatchers := s.dispatchers.set d y } : Session).handshake =
      Function.update s.handshake (.dispatcher d) y.stage.handshake := by
  ext i : 1
  rw [Function.update_apply]
  cases i with
  | call j => simp [handshake]
  | dispatcher e =>
    simp only [handshake, Runner.dispatcher.injEq, List.getElem?_set]
    have hlt := (List.getElem?_eq_some_iff.mp hd).1
    by_cases h : e = d
    · simp [h, hlt]
    · simp [h, Ne.symm h]

@[simp] theorem handshake_createDispatcher (s : Session) :
    s.createDispatcher.handshake = s.handshake := by
  ext i : 1
  cases i with
  | call j => rfl
  | dispatcher e =>
    simp only [handshake, createDispatcher]
    rcases lt_trichotomy e s.dispatchers.length with hlt | rfl | hgt
    · rw [List.getElem?_append_left hlt]
    · simp [DispatcherAt.handshake]
    · have hnone : (s.dispatchers ++ [({} : DispatcherTask)])[e]? = none := by simp; omega
      have hnone' : s.dispatchers[e]? = none := by simp; omega
      rw [hnone, hnone']

@[simp] theorem handshake_cancelTask (s : Session) : s.cancelTask.handshake = s.handshake := by
  ext i : 1
  rw [cancelTask]
  split
  · rfl
  next d _ =>
    cases i with
    | call j => rfl
    | dispatcher e =>
      simp only [handshake, List.getElem?_modify]
      cases s.dispatchers[e]? with
      | none => simp
      | some x =>
        simp only [Option.map_eq_map, Option.map_some, Option.bind_some]
        split_ifs <;> rfl

@[simp] theorem handshake_released (s : Session) (closer : Closer) :
    (s.released closer).handshake = s.handshake := by
  cases closer <;> rfl

@[simp] theorem handshake_connected (s : Session) (tried : Option ℚ) (p : ℕ) :
    (s.connected tried p).1.handshake = s.handshake := by
  simp only [connected]
  split
  · exact handshake_createDispatcher s
  · rfl

@[simp] theorem handshake_setConn (s : Session) (conn : Connection) :
    ({ s with conn } : Session).handshake = s.handshake := rfl

theorem underWay_eq {m : MqttConnect} (hreturned : ∀ p, m ≠ .returned p)
    (hraised : ∀ exc, m ≠ .raised exc) : m.underWay = some m := by
  cases m with
  | returned p => exact absurd rfl (hreturned p)
  | raised exc => exact absurd rfl (hraised exc)
  | _ => rfl

theorem handshake_call {tried : Option ℚ} {m : MqttConnect} {timedOut : Bool}
    (hk : s.calls[k]? = some (.connect tried m timedOut)) : s.handshake (.call k) = some m := by
  simp [handshake, hk, ClientCall.handshake]

theorem Move.setCall {u : Session} {c : ClientCall} (hk : s.calls[k]? = some c)
    (hu : u.handshake = s.handshake) (huk : u.calls = s.calls)
    (h : Move s a u.conn (Function.update s.handshake (.call k) call.handshake)) :
    Move s a (u.setCall k call).conn (u.setCall k call).handshake := by
  rw [handshake_setCall (huk ▸ hk), hu]
  exact h

theorem Move.setOther {u : Session} {c : ClientCall} (hk : s.calls[k]? = some c)
    (hc : c.handshake = none) (hcall : call.handshake = none) (hu : u.handshake = s.handshake)
    (huk : u.calls = s.calls) (h : Move s a u.conn s.handshake) :
    Move s a (u.setCall k call).conn (u.setCall k call).handshake := by
  apply Move.setCall hk hu huk
  have hsame : s.handshake (.call k) = none := by simp [Session.handshake, hk, hc]
  rw [hcall, ← hsame, Function.update_eq_self]
  exact h

theorem Move.closeFailed {u : Session} {c : ClientCall} {closer : Closer} {exc : AwaitExc}
    (hk : s.calls[k]? = some c) (hc : c.handshake = none) (hu : u.handshake = s.handshake)
    (huk : u.calls = s.calls) (h : Move s a u.conn s.handshake) :
    Move s a (u.closeFailed k closer exc).conn (u.closeFailed k closer exc).handshake := by
  rw [Session.closeFailed]
  split_ifs
  · apply Move.setOther hk hc rfl <;> simpa
  · exact Move.setOther hk hc rfl hu huk h

theorem handshake_connect (s : Session) (tried : Option ℚ) :
    (s.connect tried).handshake = if s.hasRunningTask then none else some .connecting := by
  rw [connect]
  split_ifs <;> rfl

theorem callStep_move {atOnce : Bool} {r : Reply}
    (ha : ∀ now, s.calls[k]? = some (.entering now) → r = .done → a = .reply k r atOnce)
    (h : CallStep pipelined s k atOnce r t) : Move s a t.conn t.handshake := by
  cases h with
  | @enter now hk =>
    by_cases hrun : s.hasRunningTask = true
    · apply Move.setOther hk rfl _ rfl rfl .quiet
      rw [handshake_connect, if_pos hrun]
    · apply Move.setCall hk rfl rfl
      rw [handshake_connect, if_neg hrun, ha now hk rfl]
      apply Move.begins
      simp [Begins, hrun, hk, ClientCall.isEntering]
  | @handshake _ m m' _ _ _ conn hk hm hreturned hraised =>
    apply Move.setCall (u := { s with conn }) hk rfl rfl
    rw [ClientCall.handshake, ← underWay_eq hreturned hraised]
    exact .handshake (handshake_call hk) (MqttConnect.resume_handshakeStep hm)
  | connected hk hm =>
    apply Move.setCall hk (by simp) (by simp)
    rw [connected_conn]
    exact .handshake (handshake_call hk) (MqttConnect.resume_handshakeStep hm)
  | @connectFailed tried _ exc _ after _ conn hk hm =>
    obtain ⟨lastConnect, hs⟩ := connectFailed_fst { s with conn } tried exc after
    apply Move.setCall hk (by rw [hs]; rfl) (by rw [hs])
    rw [hs]
    exact .handshake (handshake_call hk) (MqttConnect.resume_handshakeStep hm)
  | cancelled hk _ _ =>
    apply Move.setOther hk rfl rfl (by simp; rfl) (by simp)
    simpa using Move.quiet
  | disconnect hk _ _ => exact Move.setOther hk rfl rfl rfl rfl .quiet
  | interrupted hk hcall =>
    apply Move.closeFailed hk _ rfl rfl .quiet
    rcases hcall with ⟨d, rfl⟩ | rfl <;> rfl
  | noPipe hk _ => exact Move.closeFailed hk rfl rfl rfl .quiet
  | closePipe hk _ => exact Move.setOther hk rfl rfl rfl rfl .closes
  | closed hk =>
    apply Move.setOther hk rfl rfl (by simp) (by simp)
    simpa using Move.closed (List.mem_of_getElem? hk)
  | closeFailed hk => exact Move.closeFailed hk rfl rfl rfl .closes

theorem handshake_dispatcher {d : ℕ} {x : DispatcherTask} (hd : s.dispatchers[d]? = some x) :
    s.handshake (.dispatcher d) = x.stage.handshake := by
  simp [handshake, hd]

theorem handshake_ite {b : Prop} [Decidable b] {x y : DispatcherAt} (hx : x.handshake = none)
    (hy : y.handshake = none) : (if b then x else y).handshake = none := by
  split <;> assumption

theorem Move.dispatcher {d : ℕ} {x : DispatcherTask} {stage : DispatcherAt}
    (hd : s.dispatchers[d]? = some x) (hx : x.stage.handshake = none)
    (hstage : stage.handshake = none) :
    Move s a s.conn (Function.update s.handshake (.dispatcher d) stage.handshake) := by
  rw [hstage, ← hx, ← handshake_dispatcher hd, Function.update_eq_self]
  exact .quiet

theorem reconnectLoop_move {isClosed : Bool} {d : ℕ} {x : DispatcherTask}
    (hd : s.dispatchers[d]? = some x) (hx : x.stage.handshake = none) :
    Move s a (reconnectLoop isClosed s.conn).1
      (Function.update s.handshake (.dispatcher d) (reconnectLoop isClosed s.conn).2.handshake) := by
  rw [reconnectLoop]
  split
  · exact .dispatcher hd hx rfl
  · split
    next hp => exact @Move.reconnects s a d 0 false (Or.inl hp)
    · split
      · exact .dispatcher hd hx rfl
      · exact .dispatcher hd hx rfl

theorem dispatcherLoop_move {isClosed : Bool} {d : ℕ} {x : DispatcherTask}
    (hd : s.dispatchers[d]? = some x) (hx : x.stage.handshake = none) :
    Move s a (dispatcherLoop isClosed s.conn).1
      (Function.update s.handshake (.dispatcher d)
        (dispatcherLoop isClosed s.conn).2.handshake) := by
  rw [dispatcherLoop]
  split
  · exact .dispatcher hd hx rfl
  · exact reconnectLoop_move hd hx

theorem resumeDispatcher_move {isClosed atOnce : Bool} {d : ℕ} {x : DispatcherTask} {r : Reply}
    {conn : Connection} {stage : DispatcherAt} (hd : s.dispatchers[d]? = some x)
    (h : resumeDispatcher pipelined isClosed s.conn x.stage r atOnce = some (conn, stage)) :
    Move s a conn (Function.update s.handshake (.dispatcher d) stage.handshake) := by
  cases hx : x.stage with
  | notStarted =>
    simp only [hx, resumeDispatcher] at h
    split_ifs at h
    obtain ⟨rfl, rfl⟩ := Prod.mk.inj (Option.some.inj h).symm
    exact dispatcherLoop_move hd (by rw [hx]; rfl)
  | waiting =>
    simp only [hx, resumeDispatcher] at h
    split at h
    · cases h
      exact .dispatcher hd (by rw [hx]; rfl) rfl
    · obtain ⟨rfl, rfl⟩ := Prod.mk.inj (Option.some.inj h).symm
      exact dispatcherLoop_move hd (by rw [hx]; rfl)
    · cases h
      exact .dispatcher hd (by rw [hx]; rfl) rfl
    · cases h
  | closingOld p =>
    simp only [hx, resumeDispatcher] at h
    split at h
    · cases h
      exact @Move.reconnects s a d p true (Or.inr rfl)
    · cases h
      exact .dispatcher hd (by rw [hx]; rfl) (handshake_ite rfl rfl)
    · cases h
  | connecting m =>
    simp only [hx, resumeDispatcher] at h
    have hm : s.handshake (.dispatcher d) = some m := by
      rw [handshake_dispatcher hd, hx]
      rfl
    split at h
    · cases h
    next hr =>
      cases h
      exact .handshake hm (MqttConnect.resume_handshakeStep hr)
    next exc hr =>
      cases h
      have hstep := MqttConnect.resume_handshakeStep hr
      have hnone : (if exc.isNetwork = true then DispatcherAt.backoff else .finished).handshake =
          (MqttConnect.raised exc).underWay := handshake_ite rfl rfl
      rw [hnone]
      exact .handshake hm hstep
    next m' hreturned hraised hr =>
      cases h
      rw [DispatcherAt.handshake, ← underWay_eq hreturned hraised]
      exact .handshake hm (MqttConnect.resume_handshakeStep hr)
  | backoff =>
    simp only [hx, resumeDispatcher] at h
    split at h
    · obtain ⟨rfl, rfl⟩ := Prod.mk.inj (Option.some.inj h).symm
      exact reconnectLoop_move hd (by rw [hx]; rfl)
    · cases h
      exact .dispatcher hd (by rw [hx]; rfl) (handshake_ite rfl rfl)
    · cases h
  | finished =>
    rw [hx] at h
    cases h

theorem dispatch_move {d : ℕ} {r : Reply} {atOnce : Bool}
    (h : s.dispatch pipelined d r atOnce = some t) : Move s a t.conn t.handshake := by
  obtain ⟨x, conn, y, hd, rfl, hy⟩ := dispatch_eq_some h
  rw [handshake_setDispatcher hd]
  rcases hy with ⟨-, hr⟩ | ⟨-, hx, -, hy, rfl⟩
  · exact resumeDispatcher_move hd hr
  · exact .dispatcher hd (by rw [hx]; rfl) (by rw [hy]; rfl)

theorem Move.start {u : Session} (hu : u.handshake = s.handshake) (huc : u.calls = s.calls)
    (h : Move s a u.conn (Function.update s.handshake (.call s.calls.length) call.handshake)) :
    Move s a (u.start call).conn (u.start call).handshake := by
  rw [handshake_start, hu, huc]
  exact h

theorem Move.startOther {u : Session} (hcall : call.handshake = none)
    (hu : u.handshake = s.handshake) (huc : u.calls = s.calls) (h : Move s a u.conn s.handshake) :
    Move s a (u.start call).conn (u.start call).handshake := by
  apply Move.start hu huc
  have hnone : s.handshake (.call s.calls.length) = none := by simp [Session.handshake]
  rw [hcall, ← hnone, Function.update_eq_self]
  exact h

theorem close_move {u : Session} {closer : Closer} (hu : u.handshake = s.handshake)
    (huc : u.calls = s.calls) (hconn : u.conn = s.conn) :
    Move s a (u.close closer).conn (u.close closer).handshake := by
  rw [close]
  split
  · apply Move.startOther rfl (by simpa using hu) (by simpa using huc)
    rw [released_conn, hconn]
    exact .quiet
  · apply Move.startOther rfl _ (by simpa using huc)
    · rw [cancelTask_conn]
      exact hconn ▸ .quiet
    · exact (handshake_cancelTask _).trans hu

/-- Every step is one of these moves. -/
theorem step_move (h : s.step pipelined a = some t) : Move s a t.conn t.handshake := by
  cases a with
  | connect =>
    cases h
    by_cases hrun : s.hasRunningTask = true
    · apply Move.startOther _ rfl rfl .quiet
      rw [handshake_connect, if_pos hrun]
    · apply Move.start rfl rfl
      rw [handshake_connect, if_neg hrun]
      exact .begins (by simpa [Begins] using hrun)
  | tryClient now =>
    cases h
    apply Move.startOther _ rfl rfl .quiet
    rw [tryClient]
    split_ifs <;> rfl
  | close =>
    cases h
    exact close_move rfl rfl rfl
  | routerClose =>
    cases h
    exact close_move rfl rfl rfl
  | idleClose now =>
    cases h
    rw [idleClose]
    split
    · exact .quiet
    · split
      · exact .quiet
      · exact close_move rfl rfl rfl
  | reply k r atOnce => exact callStep_move (fun _ _ _ => rfl) (resumeCall_callStep h)
  | timeout k closedFirst atOnce =>
    exact callStep_move (by simp) (timeout_callStep h)
  | dispatch d r atOnce => exact dispatch_move h
  | lost p =>
    cases h
    exact @Move.closes s _ true p
  | chunk p bytes =>
    obtain ⟨hlive, rfl⟩ := Session.step_chunk h
    exact .chunk hlive
  | resume =>
    obtain rfl := Session.step_resume h
    exact .resumes
  | queueMsg now =>
    cases h
    exact .quiet

end Session

end Sidewire
