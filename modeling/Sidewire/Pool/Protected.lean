import Sidewire.Pool.Held

/-! # The clients that receive

`Router.start` finds the clients of the router's own key. They carry its inbound
subscription, and the idle closer passes over them. When nothing is closed
before the call returns, they are not closed afterwards either unless the router
is: whatever passes, pipes and new clients come in between, they stay open with
the dispatcher task they had.
-/

namespace Sidewire

namespace Session

variable {pipelined atOnce : Bool} {s t u : Session} {k : ℕ} {r : Reply} {call c : ClientCall}
  {b : Act}

structure Untouched (s : Session) : Prop where
  isOpen : s.isClosed = false
  calls : ∀ call ∈ s.calls, isClosing call = false
  bound : ∀ d ∈ s.dispatcherTask, d < s.dispatchers.length
  cancel : ∀ x ∈ s.dispatchers, x.cancel = .none
  returned : ClientCall.over .client ∈ s.calls → s.dispatcherTask ≠ none

def KeepsTask (s t : Session) : Prop := ∀ d ∈ s.dispatcherTask, t.dispatcherTask = some d

theorem KeepsTask.of_eq (h : t.dispatcherTask = s.dispatcherTask) : KeepsTask s t :=
  fun _ hd => h.trans hd

theorem KeepsTask.trans (h : KeepsTask s t) (h' : KeepsTask t u) : KeepsTask s u :=
  fun d hd => h' d (h d hd)

theorem KeepsTask.ne_none (h : KeepsTask s t) (hs : s.dispatcherTask ≠ none) :
    t.dispatcherTask ≠ none := by
  obtain ⟨d, hd⟩ := Option.ne_none_iff_exists'.mp hs
  simp [h d hd]

theorem untouched_init : Untouched {} where
  isOpen := rfl
  calls := by simp
  bound := by simp
  cancel := by simp
  returned := by simp

theorem isClosing_of_idleClosing (h : idleClosing c = true) : isClosing c = true := by
  cases c with
  | cancelling | disconnecting | closingPipe => rfl
  | _ => cases h

theorem Untouched.guarded (h : Untouched s) : Guarded s where
  bound := h.bound
  cancelled := by
    intro x hx hne
    obtain ⟨d, -, hd⟩ := Option.bind_eq_some_iff.mp hx
    exact absurd (h.cancel x (List.mem_of_getElem? hd)) hne
  idle := by
    intro call hcall hidle
    cases (h.calls call hcall).symm.trans (isClosing_of_idleClosing hidle)
  past := by
    intro call _ _ x hx
    obtain ⟨d, -, hd⟩ := Option.bind_eq_some_iff.mp hx
    exact h.cancel x (List.mem_of_getElem? hd)
  single := by
    intro i j c c' hi _ hc _
    cases (h.calls c (List.mem_of_getElem? hi)).symm.trans (isClosing_of_idleClosing hc)

theorem Untouched.running_or_ended (h : Untouched s) (htask : s.dispatcherTask ≠ none) :
    s.Running ∨ s.EndedItself := by
  by_cases hended : s.EndedItself
  · exact Or.inr hended
  · exact Or.inl (h.guarded.running h.isOpen htask hended)

theorem Untouched.frame (h : Untouched s) (hclosed : t.isClosed = s.isClosed)
    (htask : t.dispatcherTask = s.dispatcherTask) (hd : t.dispatchers = s.dispatchers)
    (hcalls : ∀ c ∈ t.calls, c ∈ s.calls ∨
      isClosing c = false ∧ (c = .over .client → s.dispatcherTask ≠ none)) : Untouched t where
  isOpen := hclosed.trans h.isOpen
  calls := by
    intro c hc
    rcases hcalls c hc with hold | ⟨hnew, -⟩
    · exact h.calls c hold
    · exact hnew
  bound := by rw [htask, hd]; exact h.bound
  cancel := by rw [hd]; exact h.cancel
  returned := by
    intro hc
    rw [htask]
    rcases hcalls _ hc with hold | ⟨-, hnew⟩
    · exact h.returned hold
    · exact hnew rfl

theorem mem_setCall (hu : u.calls = s.calls) (hc : c ∈ (u.setCall k call).calls) :
    c ∈ s.calls ∨ c = call := by
  rw [← hu]
  exact List.mem_or_eq_of_mem_set hc

theorem Untouched.start (h : Untouched s) (hclosing : isClosing call = false)
    (hreturned : call = .over .client → s.dispatcherTask ≠ none) : Untouched (s.start call) := by
  refine h.frame (t := s.start call) rfl rfl rfl ?_
  intro c hc
  rcases List.mem_append.mp hc with hc | hc
  · exact Or.inl hc
  · obtain rfl := List.mem_singleton.mp hc
    exact Or.inr ⟨hclosing, hreturned⟩

theorem Untouched.tryClient (h : Untouched s) (now : ℚ) :
    Untouched (s.start (s.tryClient now)) := by
  apply h.start
  · unfold Session.tryClient
    split_ifs <;> rfl
  · intro hcall
    unfold Session.tryClient at hcall
    split_ifs at hcall with htask
    · exact htask
    · cases hcall

theorem Untouched.connected {tried : Option ℚ} {p : ℕ} {conn : Connection} (h : Untouched s) :
    Untouched ((({ s with conn } : Session).connected tried p).1.setCall k
        (.over (({ s with conn } : Session).connected tried p).2)) ∧
      KeepsTask s ((({ s with conn } : Session).connected tried p).1.setCall k
        (.over (({ s with conn } : Session).connected tried p).2)) := by
  have hcalls : ∀ c ∈ s.calls.set k (.over (({ s with conn } : Session).connected tried p).2),
      isClosing c = false := by
    intro c hc
    rcases List.mem_or_eq_of_mem_set hc with hc | rfl
    · exact h.calls c hc
    · rfl
  by_cases htask : s.dispatcherTask = none
  · simp only [Session.connected, htask, if_true, createDispatcher, Session.setCall] at hcalls ⊢
    refine ⟨⟨h.isOpen, hcalls, ?_, ?_, by simp⟩, ?_⟩
    · simp
    · intro x hx
      rcases List.mem_append.mp hx with hx | hx
      · exact h.cancel x hx
      · rw [List.mem_singleton.mp hx]
    · intro d hd
      cases htask.symm.trans hd
  · simp only [Session.connected, htask, if_false, Session.setCall] at hcalls ⊢
    exact ⟨h.frame rfl rfl rfl (fun c hc => Or.inr ⟨hcalls c hc, fun _ => htask⟩), .of_eq rfl⟩

theorem Untouched.callStep (h : Untouched s) (hstep : CallStep pipelined s k atOnce r t) :
    Untouched t ∧ KeepsTask s t := by
  have hnot : ∀ {c : ClientCall}, s.calls[k]? = some c → isClosing c = true →
      Untouched t ∧ KeepsTask s t := by
    intro c hk hclosing
    cases (h.calls c (List.mem_of_getElem? hk)).symm.trans hclosing
  cases hstep with
  | @enter now hk =>
    refine ⟨h.frame rfl rfl rfl ?_, .of_eq rfl⟩
    intro c hc
    refine (mem_setCall rfl hc).imp id ?_
    rintro rfl
    refine ⟨?_, fun hover => (connect_eq_over hover).1⟩
    unfold Session.connect
    split_ifs <;> rfl
  | handshake hk =>
    refine ⟨h.frame rfl rfl rfl ?_, .of_eq rfl⟩
    intro c hc
    refine (mem_setCall rfl hc).imp id ?_
    rintro rfl
    exact ⟨rfl, by simp⟩
  | connected hk => exact h.connected
  | @connectFailed tried _ exc _ after _ conn hk =>
    have hnone := not_succeeds_connectFailed ({ s with conn } : Session) tried exc after
    obtain ⟨lastConnect, heq⟩ := connectFailed_fst { s with conn } tried exc after
    rw [heq]
    refine ⟨h.frame rfl rfl rfl ?_, .of_eq rfl⟩
    intro c hc
    refine (mem_setCall rfl hc).imp id ?_
    rintro rfl
    refine ⟨rfl, fun hover => ?_⟩
    rw [ClientCall.over.inj hover] at hnone
    exact absurd trivial hnone
  | cancelled hk | disconnect hk | noPipe hk | closePipe hk | closed hk | closeFailed hk =>
    exact hnot hk rfl
  | interrupted hk hcall =>
    rcases hcall with ⟨d, rfl⟩ | rfl
    · exact hnot hk rfl
    · exact hnot hk rfl

theorem Untouched.dispatch {d : ℕ} (h : Untouched s)
    (hstep : s.dispatch pipelined d r atOnce = some t) : Untouched t := by
  obtain ⟨x, conn, y, hx, rfl, hy⟩ := dispatch_eq_some hstep
  have hcancel := h.cancel x (List.mem_of_getElem? hx)
  refine ⟨h.isOpen, h.calls, ?_, ?_, h.returned⟩
  · intro e he
    simpa using h.bound e he
  · intro z hz
    rcases List.mem_or_eq_of_mem_set hz with hz | rfl
    · exact h.cancel z hz
    · rcases hy with ⟨⟨heq, -⟩ | ⟨hrequested, -⟩, -⟩ | ⟨hrequested, -⟩
      · exact heq.trans hcancel
      · cases hcancel.symm.trans hrequested
      · cases hcancel.symm.trans hrequested

theorem Untouched.step (h : Untouched s) (hallowed : Pool.unwatched s b = true)
    (hstep : s.step pipelined b = some t) : Untouched t ∧ KeepsTask s t := by
  cases b with
  | reply k r atOnce => exact h.callStep (resumeCall_callStep hstep)
  | timeout k closedFirst atOnce => exact h.callStep (timeout_callStep hstep)
  | dispatch d r atOnce =>
    refine ⟨h.dispatch hstep, ?_⟩
    obtain ⟨_, _, _, -, -, rfl⟩ := dispatch_unfinished hstep
    exact .of_eq rfl
  | lost p =>
    cases hstep
    exact ⟨h.frame rfl rfl rfl fun _ => Or.inl, .of_eq rfl⟩
  | chunk p bytes =>
    obtain ⟨-, rfl⟩ := Session.step_chunk hstep
    exact ⟨h.frame rfl rfl rfl fun _ => Or.inl, .of_eq rfl⟩
  | resume =>
    obtain rfl := Session.step_resume hstep
    exact ⟨h.frame rfl rfl rfl fun _ => Or.inl, .of_eq rfl⟩
  | _ => cases hallowed

end Session

namespace Pool

open Session

variable {pipelined atOnce : Bool} {P Q : Pool} {a : PoolAct} {client : BrokerClient} {j : ℕ}
  {r : Reply} {t : Session}

structure Spares (P : Pool) (client : BrokerClient) : Prop where
  idle : ∀ pass ∈ P.passes, pass.sweep.isIdle = true
  passesOver : P.passes = [] ∨ client ∈ P.protectedClients

theorem Spares.swept {sweep : Sweep} (h : P.Spares client)
    (hcomes : P.comesTo j = some (sweep, client)) :
    P.sweepClient sweep client = P.session client := by
  rcases h.passesOver with hnone | hprotected
  · simp [comesTo, hnone] at hcomes
  · have hidle := comesTo_idle h.idle hcomes
    cases sweep with
    | shutdown => cases hidle
    | loop now | manual now => exact if_pos hprotected

theorem SessionMove.untouched (h : SessionMove pipelined P a client t) (hspares : P.Spares client)
    (hs : Untouched (P.session client)) : Untouched t ∧ (P.Has client →
      KeepsTask (P.session client) t) := by
  cases h with
  | same => exact ⟨hs, fun _ => .of_eq rfl⟩
  | own _ hallowed hstep =>
    obtain ⟨ht, hkeeps⟩ := hs.step hallowed hstep
    exact ⟨ht, fun _ => hkeeps⟩
  | tried => exact ⟨hs.tryClient _, fun _ => .of_eq rfl⟩
  | sent => exact ⟨hs.frame rfl rfl rfl fun _ => Or.inl, fun _ => .of_eq rfl⟩
  | swept _ hcomes =>
    rw [hspares.swept hcomes]
    exact ⟨hs, fun _ => .of_eq rfl⟩
  | closes _ _ hclosing =>
    obtain ⟨call, hcall, hclosing⟩ := (Option.any_eq_true _ _).mp hclosing
    cases (hs.calls call (List.mem_of_getElem? hcall)).symm.trans hclosing
  | made hnot => exact ⟨untouched_init, fun hhas => absurd hhas hnot⟩

theorem advance_eq (h : P.advance j = some Q) : ∃ session cache passes loop running,
    Q = { P with session, cache, passes, loop, running } := by
  obtain ⟨sweep, c, _, _, -, -, ⟨-, rfl⟩ | ⟨-, ⟨-, rfl⟩ | ⟨_, todo, moved, -, -, rfl⟩⟩⟩ :=
    advance_spec h
  · exact ⟨_, _, _, _, _, rfl⟩
  · exact ⟨_, _, _, _, _, rfl⟩
  · obtain ⟨P', place, heq, rfl | rfl, -⟩ := sweepStep_spec P j sweep
      { c with hosts := ⟨c.hosts.size, todo⟩ } moved
    · exact ⟨_, _, _, _, _, heq⟩
    · exact ⟨_, _, _, _, _, heq⟩

theorem goesOn_eq (h : P.goesOn pipelined j r atOnce = some Q) :
    ∃ session cache passes loop running left,
      Q = { P with session, cache, passes, loop, running, left } := by
  obtain ⟨sweep, c, closing, _, _, s, -, -, ⟨-, rfl⟩ | ⟨res, -, hQ⟩⟩ := goesOn_spec h
  · exact ⟨_, _, _, _, _, _, rfl⟩
  · rcases closeEnded_spec (P.setSession closing s) j sweep c closing res with
      ⟨-, heq⟩ | ⟨exc, -, -, heq⟩
    · rw [hQ, heq, leave]
      split_ifs
      · exact ⟨_, _, _, _, _, _, rfl⟩
      · exact ⟨_, _, _, _, _, _, rfl⟩
    · exact ⟨_, _, _, _, _, _, hQ.trans heq⟩

theorem goesOn_left (h : P.goesOn pipelined j r atOnce = some Q)
    (hs : Untouched (P.session client)) : Q.left client = P.left client := by
  rcases goesOn_leaves h with ⟨heq, -⟩ | ⟨closing, k, _, _, -, hclosing, -, -, -, -, heq, -⟩
  · rw [heq]
  · rw [heq, Function.update_of_ne]
    rintro rfl
    obtain ⟨call, hcall, hclosing⟩ := (Option.any_eq_true _ _).mp hclosing
    cases (hs.calls call (List.mem_of_getElem? hcall)).symm.trans hclosing

theorem Move.left (h : Move pipelined P a Q) (hs : Untouched (P.session client))
    (hleft : P.left client = false) : Q.left client = false := by
  cases h with
  | @session moved b t _ _ _ =>
    dsimp only
    split_ifs
    · rw [Function.update_apply]
      split_ifs
      · rfl
      · exact hleft
    · exact hleft
  | closedPipe =>
    obtain ⟨cache, heq⟩ := foldl_evict _ _
    rw [heq]
    exact hleft
  | stopped _ hP' =>
    rcases hP' with ⟨rfl, -⟩ | ⟨i, -, hgoes⟩
    · exact hleft
    · have hsame := goesOn_left hgoes hs
      exact hsame.trans hleft
  | advance hadv =>
    obtain ⟨_, _, _, _, _, rfl⟩ := advance_eq hadv
    exact hleft
  | goesOn hgoes => exact (goesOn_left hgoes hs).trans hleft
  | _ => exact hleft

theorem Move.protected (h : Move pipelined P a Q) : Q.protectedClients = P.protectedClients := by
  cases h with
  | closedPipe =>
    obtain ⟨cache, heq⟩ := foldl_evict _ _
    rw [heq]
  | stopped _ hP' =>
    rcases hP' with ⟨rfl, -⟩ | ⟨i, -, hgoes⟩
    · rfl
    · obtain ⟨_, _, _, _, _, _, rfl⟩ := goesOn_eq hgoes
      rfl
  | advance hadv =>
    obtain ⟨_, _, _, _, _, rfl⟩ := advance_eq hadv
    rfl
  | goesOn hgoes =>
    obtain ⟨_, _, _, _, _, _, rfl⟩ := goesOn_eq hgoes
    rfl
  | _ => rfl

theorem Move.sweeps (h : Move pipelined P a Q) (ha : a ≠ .close) :
    Q.passes.map Pass.sweep = P.passes.map Pass.sweep ∨
      (a = .wake ∧ P.loop = .sleeping ∨ a = .closeIdleClients) ∧
        ∃ sweep, sweep.isIdle = true ∧
          Q.passes.map Pass.sweep = P.passes.map Pass.sweep ++ [sweep] := by
  cases h with
  | closedPipe =>
    obtain ⟨cache, heq⟩ := foldl_evict _ _
    rw [heq]
    exact Or.inl rfl
  | @began _ loop sweep hstarts =>
    right
    have hQ : (({ P with loop } : Pool).begin sweep).passes.map Pass.sweep =
        P.passes.map Pass.sweep ++ [sweep] := by
      rw [begin, sweeps_setPlace, List.map_append]
      rfl
    cases hstarts with
    | wake hsleeping => exact ⟨Or.inl ⟨rfl, hsleeping⟩, _, rfl, hQ⟩
    | manual => exact ⟨Or.inr rfl, _, rfl, hQ⟩
    | close => exact absurd rfl ha
  | stopping => exact absurd rfl ha
  | stopped _ hP' =>
    left
    rw [sweeps_setPlace]
    rcases hP' with ⟨rfl, -⟩ | ⟨i, -, hgoes⟩
    · rfl
    · have hsame := sweeps_goesOn hgoes
      exact hsame
  | advance hadv => exact Or.inl (sweeps_advance hadv)
  | goesOn hgoes => exact Or.inl (sweeps_goesOn hgoes)
  | _ => exact Or.inl rfl

theorem Move.idle (h : Move pipelined P a Q) (ha : a ≠ .close)
    (hidle : ∀ pass ∈ P.passes, pass.sweep.isIdle = true) :
    ∀ pass ∈ Q.passes, pass.sweep.isIdle = true := by
  have hsweeps : ∀ sweep ∈ P.passes.map Pass.sweep, sweep.isIdle = true := by
    simpa using hidle
  have hQ : ∀ sweep ∈ Q.passes.map Pass.sweep, sweep.isIdle = true := by
    rcases h.sweeps ha with heq | ⟨-, sweep, hnew, heq⟩
    · rw [heq]
      exact hsweeps
    · rw [heq]
      intro sweep' hsweep'
      rcases List.mem_append.mp hsweep' with hold | hold
      · exact hsweeps sweep' hold
      · rw [List.mem_singleton.mp hold]
        exact hnew
  simpa using hQ

theorem Move.no_passes (h : Move pipelined P a Q) (hpasses : P.passes = []) (hloop : P.loop = .off)
    (hclose : a ≠ .close) (hidle : a ≠ .closeIdleClients) (hstart : a ≠ .startLoop) :
    Q.passes = [] ∧ Q.loop = .off := by
  have hnone : ∀ {j : ℕ} {pass : Pass}, P.passes[j]? ≠ some pass := by
    intro j pass
    simp [hpasses]
  constructor
  · rcases h.sweeps hclose with heq | ⟨⟨-, hsleeping⟩ | hmanual, -⟩
    · simpa [hpasses] using heq
    · cases hloop.symm.trans hsleeping
    · exact absurd hmanual hidle
  · cases h with
    | closedPipe =>
      obtain ⟨cache, heq⟩ := foldl_evict _ _
      rw [heq]
      exact hloop
    | startLoop => exact absurd rfl hstart
    | began hstarts =>
      cases hstarts with
      | wake hsleeping => cases hloop.symm.trans hsleeping
      | manual => exact absurd rfl hidle
      | close => exact absurd rfl hclose
    | stopped hpass => exact absurd hpass hnone
    | advance hadv =>
      obtain ⟨_, _, _, _, hpass, -⟩ := advance_spec hadv
      exact absurd hpass hnone
    | goesOn hgoes =>
      obtain ⟨_, _, _, _, _, _, hpass, -⟩ := goesOn_spec hgoes
      exact absurd hpass hnone
    | _ => exact hloop

/-- The idle closer passes over the client, which serves: it is open, nobody has begun to close it,
and the idle closer has not left it. -/
structure Receives (P : Pool) (client : BrokerClient) : Prop where
  has : P.Has client
  untouched : Untouched (P.session client)
  task : (P.session client).dispatcherTask ≠ none
  left : P.left client = false

theorem Receives.move (h : P.Receives client) (hspares : P.Spares client)
    (hmove : Move pipelined P a Q) :
    Q.Receives client ∧ KeepsTask (P.session client) (Q.session client) := by
  obtain ⟨huntouched, hkeeps⟩ := (hmove.session_move client).untouched hspares h.untouched
  have htask := hkeeps h.has
  exact ⟨⟨hmove.wider.has h.has, huntouched, htask.ne_none h.task, hmove.left h.untouched h.left⟩,
    htask⟩

def startLoop (P : Pool) : Pool :=
  match P.loop with
  | .sleeping | .passing _ => P
  | _ => { P with loop := .sleeping }

theorem startLoop_eq (P : Pool) : ∃ loop, P.startLoop = { P with loop } := by
  unfold startLoop
  split
  · exact ⟨P.loop, rfl⟩
  · exact ⟨P.loop, rfl⟩
  · exact ⟨.sleeping, rfl⟩

end Pool

inductive StartAt | discovering | failed | returned
  deriving DecidableEq, Repr

structure StartCall where
  place : StartAt := .discovering
  tries : List (BrokerClient × ℕ) := []
  deriving DecidableEq, Repr

structure RouterLife where
  pubKeyHex : String
  pool : Pool
  starts : List StartCall := []

inductive LifeAct
  | pool (a : PoolAct)
  | start
  | tryClient (i : ℕ) (client : BrokerClient)
  | discovered (i : ℕ) (clients : List BrokerClient)
  | failed (i : ℕ)
  deriving DecidableEq, Repr

namespace RouterLife

open Pool Session

/-- `Router.__init__`: no client has been connected, and the idle closer does not run. -/
def created (supports : ℕ → Bool) (clients : ClientTable) (pubKeyHex : String) (clock : ℚ) :
    RouterLife where
  pubKeyHex
  pool := { supports, clients, session := fun _ => {}, protectedClients := [], clock }

variable (pipelined : Bool) (L : RouterLife)

/-- The discovery calls `try_client`. -/
def tryClient (i : ℕ) (client : BrokerClient) : Option RouterLife :=
  match L.starts[i]? with
  | some call =>
    if call.place ≠ .discovering ∨ ¬ L.pool.Has client then none
    else
      let s := L.pool.session client
      some { L with
        pool := L.pool.setSession client (s.start (s.tryClient L.pool.clock))
        starts := L.starts.set i { call with tries := call.tries ++ [(client, s.calls.length)] } }
  | none => none

/-- The discovery has returned clients. They are protected from the idle closer, whose loop starts
only now, and cached for the router's own key. -/
def discovered (i : ℕ) (clients : List BrokerClient) : Option RouterLife :=
  match L.starts[i]? with
  | some call =>
    if call.place = .discovering ∧
        ∀ client ∈ clients, ∃ t ∈ call.tries, t.1 = client ∧ L.pool.Tried t then
      let P := { L.pool with protectedClients := L.pool.protectedClients ∪ clients }
      some { L with
        pool := (P.cacheClients L.pubKeyHex clients).startLoop
        starts := L.starts.set i { call with place := .returned } }
    else none
  | none => none

def failed (i : ℕ) : Option RouterLife :=
  match L.starts[i]? with
  | some call =>
    if call.place = .discovering then
      some { L with starts := L.starts.set i { call with place := .failed } }
    else none
  | none => none

def act : LifeAct → Option RouterLife
  | .pool a =>
    if a = .startLoop then none else (L.pool.step pipelined a).map fun pool => { L with pool }
  | .start => some { L with starts := L.starts ++ [{}] }
  | .tryClient i client => L.tryClient i client
  | .discovered i clients => L.discovered i clients
  | .failed i => L.failed i

def step (a : LifeAct) : Option RouterLife :=
  match L.pool.running, a with
  | none, a => L.act pipelined a
  | some _, .pool a => L.act pipelined (.pool a)
  | some _, _ => none

def HasStarted : Prop := ∃ call ∈ L.starts, call.place = .returned

instance : Decidable L.HasStarted := inferInstanceAs (Decidable (∃ call ∈ L.starts, _))

/-- `start` is called once, or again when it has raised; nobody calls `close_idle_clients` before
it has returned, and nobody closes the router. -/
def OneStart : LifeAct → Prop
  | .pool .close => False
  | .pool .closeIdleClients => L.HasStarted
  | .start => ∀ call ∈ L.starts, call.place = .failed
  | _ => True

instance (a : LifeAct) : Decidable (L.OneStart a) :=
  match a with
  | .pool .close => isFalse id
  | .pool .closeIdleClients => inferInstanceAs (Decidable L.HasStarted)
  | .start => inferInstanceAs (Decidable (∀ call ∈ L.starts, _))
  | .pool (.tick _) | .pool (.ensureClient ..) | .pool (.session ..) | .pool (.pipe ..)
  | .pool (.tryClient ..) | .pool (.connected ..) | .pool (.send _) | .pool (.closePipe _)
  | .pool .startLoop | .pool .wake | .pool (.stopped ..) | .pool (.advance _)
  | .pool (.goesOn ..) | .tryClient .. | .discovered .. | .failed _ => isTrue trivial

variable {pipelined} {L} {L' : RouterLife} {a : LifeAct} {client : BrokerClient}

inductive LifeMove (pipelined : Bool) (L : RouterLife) : LifeAct → RouterLife → Prop where

  | pool {a : PoolAct} {Q : Pool} : a ≠ .startLoop → Move pipelined L.pool a Q →
      LifeMove pipelined L (.pool a) { L with pool := Q }

  | start : LifeMove pipelined L .start { L with starts := L.starts ++ [{}] }

  | tried {i : ℕ} {call : StartCall} {client : BrokerClient} : L.starts[i]? = some call →
      call.place = .discovering → L.pool.Has client →
      LifeMove pipelined L (.tryClient i client) { L with
        pool := L.pool.setSession client ((L.pool.session client).start
          ((L.pool.session client).tryClient L.pool.clock))
        starts := L.starts.set i { call with
          tries := call.tries ++ [(client, (L.pool.session client).calls.length)] } }

  | discovered {i : ℕ} {call : StartCall} {clients : List BrokerClient} {loop : CloserLoop} :
      L.starts[i]? = some call → call.place = .discovering →
      (∀ client ∈ clients, ∃ t ∈ call.tries, t.1 = client ∧ L.pool.Tried t) →
      LifeMove pipelined L (.discovered i clients) { L with
        pool := { L.pool with
          protectedClients := L.pool.protectedClients ∪ clients
          cache := L.pool.cache.set L.pubKeyHex ⟨L.pool.clock, clients⟩
          loop }
        starts := L.starts.set i { call with place := .returned } }

  | failed {i : ℕ} {call : StartCall} : L.starts[i]? = some call → call.place = .discovering →
      LifeMove pipelined L (.failed i)
        { L with starts := L.starts.set i { call with place := .failed } }

theorem act_move (h : L.act pipelined a = some L') : LifeMove pipelined L a L' := by
  cases a with
  | pool a =>
    simp only [act] at h
    split_ifs at h with ha
    obtain ⟨Q, hQ, rfl⟩ := Option.map_eq_some_iff.mp h
    exact .pool ha (step_move hQ)
  | start =>
    cases h
    exact .start
  | tryClient i client =>
    simp only [act, tryClient] at h
    split at h
    next call hcall =>
      split_ifs at h with hnot
      cases h
      push Not at hnot
      exact .tried hcall hnot.1 hnot.2
    · cases h
  | discovered i clients =>
    simp only [act, discovered] at h
    split at h
    next call hcall =>
      split_ifs at h with hallowed
      cases h
      obtain ⟨loop, heq⟩ := startLoop_eq (cacheClients
        { L.pool with protectedClients := L.pool.protectedClients ∪ clients } L.pubKeyHex clients)
      rw [heq]
      exact .discovered hcall hallowed.1 hallowed.2
    · cases h
  | failed i =>
    simp only [act, failed] at h
    split at h
    next call hcall =>
      split_ifs at h with hplace
      cases h
      exact .failed hcall hplace
    · cases h

theorem step_lifeMove (h : L.step pipelined a = some L') : LifeMove pipelined L a L' := by
  unfold step at h
  split at h
  · exact act_move h
  · exact act_move h
  · cases h

/-- A call of `start` that has not raised. -/
def Live (L : RouterLife) (i : ℕ) : Prop := ∃ call, L.starts[i]? = some call ∧ call.place ≠ .failed

structure Waiting (L : RouterLife) : Prop where
  passes : L.pool.passes = []
  loop : L.pool.loop = .off
  untouched : ∀ client, Untouched (L.pool.session client)
  left : ∀ client, L.pool.left client = false
  unprotected : L.pool.protectedClients = []

structure Guards (L : RouterLife) : Prop where
  single : ∀ i j, L.Live i → L.Live j → i = j
  tried : ∀ call ∈ L.starts, ∀ t ∈ call.tries, L.pool.Has t.1
  idle : ∀ pass ∈ L.pool.passes, pass.sweep.isIdle = true
  waiting : ¬ L.HasStarted → L.Waiting
  receives : ∀ client ∈ L.pool.protectedClients, L.pool.Receives client

theorem guards_created (supports : ℕ → Bool) (clients : ClientTable) (pubKeyHex : String)
    (clock : ℚ) : Guards (created supports clients pubKeyHex clock) where
  single := by
    rintro i j ⟨call, hcall, -⟩
    cases hcall
  tried := by simp [created]
  idle := by simp [created]
  waiting _ := ⟨rfl, rfl, fun _ => untouched_init, fun _ => rfl, rfl⟩
  receives := by simp [created]

theorem Guards.not_started {i : ℕ} {call : StartCall} (h : L.Guards)
    (hcall : L.starts[i]? = some call) (hplace : call.place = .discovering) : ¬ L.HasStarted := by
  rintro ⟨other, hother, hreturned⟩
  obtain ⟨j, hj⟩ := List.getElem?_of_mem hother
  have hij := h.single i j ⟨call, hcall, by simp [hplace]⟩ ⟨other, hj, by simp [hreturned]⟩
  subst hij
  cases hcall.symm.trans hj
  cases hplace.symm.trans hreturned

theorem Guards.pool {b : PoolAct} {Q : Pool} (h : L.Guards) (ha : L.OneStart (.pool b))
    (hstart : b ≠ .startLoop) (hmove : Move pipelined L.pool b Q) :
    Guards { L with pool := Q } := by
  have hclose : b ≠ .close := by
    rintro rfl
    exact ha
  refine ⟨h.single, ?_, hmove.idle hclose h.idle, ?_, ?_⟩
  · exact fun call hcall t ht => hmove.wider.has (h.tried call hcall t ht)
  · intro hnot
    have hwaiting := h.waiting hnot
    have hmanual : b ≠ .closeIdleClients := by
      rintro rfl
      exact hnot ha
    obtain ⟨hpasses, hloop⟩ :=
      hmove.no_passes hwaiting.passes hwaiting.loop hclose hmanual hstart
    refine ⟨hpasses, hloop, ?_, ?_, hmove.protected.trans hwaiting.unprotected⟩
    · intro client
      exact ((hmove.session_move client).untouched ⟨h.idle, Or.inl hwaiting.passes⟩
        (hwaiting.untouched client)).1
    · exact fun client => hmove.left (hwaiting.untouched client) (hwaiting.left client)
  · intro client hclient
    have hprotected : client ∈ L.pool.protectedClients := hmove.protected ▸ hclient
    exact ((h.receives client hprotected).move ⟨h.idle, Or.inr hprotected⟩ hmove).1

theorem Guards.single_set {i : ℕ} {call call' : StartCall} {pool : Pool} (h : L.Guards)
    (hcall : L.starts[i]? = some call) (hplace : call'.place = .failed ∨ call.place ≠ .failed)
    (j k : ℕ) (hj : Live { L with pool, starts := L.starts.set i call' } j)
    (hk : Live { L with pool, starts := L.starts.set i call' } k) : j = k := by
  have hlive : ∀ j, Live { L with pool, starts := L.starts.set i call' } j → L.Live j := by
    rintro j ⟨c, hc, hne⟩
    simp only [List.getElem?_set] at hc
    split_ifs at hc with hij
    · cases hc
      subst hij
      exact ⟨call, hcall, hplace.resolve_left hne⟩
    · exact ⟨c, hc, hne⟩
  exact h.single j k (hlive j hj) (hlive k hk)

theorem Guards.start (h : L.Guards) (ha : L.OneStart .start) :
    Guards { L with starts := L.starts ++ [{}] } := by
  have hlive : ∀ i, Live { L with starts := L.starts ++ [{}] } i → i = L.starts.length := by
    rintro i ⟨call, hcall, hne⟩
    simp only [List.getElem?_append] at hcall
    split_ifs at hcall with hlt
    · exact absurd (ha call (List.mem_of_getElem? hcall)) hne
    · have hlt' := (List.getElem?_eq_some_iff.mp hcall).1
      simp only [List.length_singleton] at hlt'
      omega
  refine ⟨?_, ?_, h.idle, ?_, h.receives⟩
  · exact fun i j hi hj => (hlive i hi).trans (hlive j hj).symm
  · intro call hcall t ht
    rcases List.mem_append.mp hcall with hcall | hcall
    · exact h.tried call hcall t ht
    · rw [List.mem_singleton.mp hcall] at ht
      cases ht
  · intro hnot
    have hwaiting : L.Waiting := by
      apply h.waiting
      rintro ⟨call, hcall, hreturned⟩
      exact hnot ⟨call, List.mem_append_left _ hcall, hreturned⟩
    exact ⟨hwaiting.passes, hwaiting.loop, hwaiting.untouched, hwaiting.left,
      hwaiting.unprotected⟩

theorem Guards.tries {i : ℕ} {call : StartCall} (h : L.Guards) (hcall : L.starts[i]? = some call)
    (hplace : call.place = .discovering) (hhas : L.pool.Has client) :
    Guards { L with
      pool := L.pool.setSession client ((L.pool.session client).start
        ((L.pool.session client).tryClient L.pool.clock))
      starts := L.starts.set i { call with
        tries := call.tries ++ [(client, (L.pool.session client).calls.length)] } } := by
  have hwaiting := h.waiting (h.not_started hcall hplace)
  have huntouched : ∀ other, Untouched ((L.pool.setSession client
      ((L.pool.session client).start ((L.pool.session client).tryClient L.pool.clock))).session
        other) := by
    intro other
    simp only [setSession, Function.update_apply]
    split_ifs
    · exact (hwaiting.untouched client).tryClient _
    · exact hwaiting.untouched other
  refine ⟨h.single_set hcall (Or.inr (by simp [hplace])), ?_, h.idle, ?_, ?_⟩
  · intro call' hcall' t ht
    rcases List.mem_or_eq_of_mem_set hcall' with hcall' | rfl
    · exact h.tried call' hcall' t ht
    · rcases List.mem_append.mp ht with ht | ht
      · exact h.tried call (List.mem_of_getElem? hcall) t ht
      · rw [List.mem_singleton.mp ht]
        exact hhas
  · exact fun _ => ⟨hwaiting.passes, hwaiting.loop, huntouched, hwaiting.left,
      hwaiting.unprotected⟩
  · intro other hother
    have hnone : other ∈ L.pool.protectedClients := hother
    rw [hwaiting.unprotected] at hnone
    cases hnone

theorem Guards.discovered {i : ℕ} {call : StartCall} {clients : List BrokerClient}
    {loop : CloserLoop} (h : L.Guards) (hcall : L.starts[i]? = some call)
    (hplace : call.place = .discovering)
    (htried : ∀ client ∈ clients, ∃ t ∈ call.tries, t.1 = client ∧ L.pool.Tried t) :
    Guards { L with
      pool := { L.pool with
        protectedClients := L.pool.protectedClients ∪ clients
        cache := L.pool.cache.set L.pubKeyHex ⟨L.pool.clock, clients⟩
        loop }
      starts := L.starts.set i { call with place := .returned } } := by
  have hwaiting := h.waiting (h.not_started hcall hplace)
  have hmem := List.mem_of_getElem? hcall
  refine ⟨h.single_set hcall (Or.inr (by simp [hplace])), ?_, h.idle, ?_, ?_⟩
  · intro call' hcall' t ht
    rcases List.mem_or_eq_of_mem_set hcall' with hcall' | rfl
    · exact h.tried call' hcall' t ht
    · exact h.tried call hmem t ht
  · intro hnot
    have hlt := (List.getElem?_eq_some_iff.mp hcall).1
    exact absurd ⟨{ call with place := .returned }, List.mem_set hlt _, rfl⟩ hnot
  · intro client hclient
    have hnew : client ∈ clients := by
      rcases List.mem_union_iff.mp hclient with hold | hnew
      · rw [hwaiting.unprotected] at hold
        cases hold
      · exact hnew
    obtain ⟨t, ht, rfl, hover⟩ := htried client hnew
    have huntouched := hwaiting.untouched t.1
    exact ⟨h.tried call hmem t ht, huntouched,
      huntouched.returned (List.mem_of_getElem? hover), hwaiting.left t.1⟩

theorem Guards.failed {i : ℕ} {call : StartCall} (h : L.Guards) (hcall : L.starts[i]? = some call)
    (hplace : call.place = .discovering) :
    Guards { L with starts := L.starts.set i { call with place := .failed } } := by
  have hwaiting := h.waiting (h.not_started hcall hplace)
  refine ⟨h.single_set hcall (Or.inl rfl), ?_, h.idle, ?_, h.receives⟩
  · intro call' hcall' t ht
    rcases List.mem_or_eq_of_mem_set hcall' with hcall' | rfl
    · exact h.tried call' hcall' t ht
    · exact h.tried call (List.mem_of_getElem? hcall) t ht
  · exact fun _ => ⟨hwaiting.passes, hwaiting.loop, hwaiting.untouched, hwaiting.left,
      hwaiting.unprotected⟩

theorem Guards.step (h : L.Guards) (ha : L.OneStart a) (hstep : L.step pipelined a = some L') :
    L'.Guards := by
  cases step_lifeMove hstep with
  | pool hstart hmove => exact h.pool ha hstart hmove
  | start => exact h.start ha
  | tried hcall hplace hhas => exact h.tries hcall hplace hhas
  | discovered hcall hplace htried => exact h.discovered hcall hplace htried
  | failed hcall hplace => exact h.failed hcall hplace

theorem Guards.keeps (h : L.Guards) (ha : L.OneStart a) (hstep : L.step pipelined a = some L')
    (hclient : client ∈ L.pool.protectedClients) : client ∈ L'.pool.protectedClients ∧
      KeepsTask (L.pool.session client) (L'.pool.session client) := by
  have hnone : ∀ {i : ℕ} {call : StartCall}, L.starts[i]? = some call →
      call.place ≠ .discovering := by
    intro i call hcall hplace
    rw [(h.waiting (h.not_started hcall hplace)).unprotected] at hclient
    cases hclient
  cases step_lifeMove hstep with
  | pool hstart hmove =>
    exact ⟨hmove.protected ▸ hclient,
      ((h.receives client hclient).move ⟨h.idle, Or.inr hclient⟩ hmove).2⟩
  | start => exact ⟨hclient, .of_eq rfl⟩
  | tried hcall hplace | discovered hcall hplace | failed hcall hplace =>
    exact absurd hplace (hnone hcall)

theorem Guards.keeps_run : ∀ {bs : List LifeAct} {L L' : RouterLife}, L.Guards →
    Machine.Meets (RouterLife.step pipelined) OneStart L bs →
    Machine.run (RouterLife.step pipelined) L bs = some L' →
    client ∈ L.pool.protectedClients → client ∈ L'.pool.protectedClients ∧ L'.Guards ∧
      KeepsTask (L.pool.session client) (L'.pool.session client)
  | [], L, L', h, _, hrun, hclient => by
    obtain rfl := Option.some.inj hrun
    exact ⟨hclient, h, .of_eq rfl⟩
  | a :: bs, L, L', h, hmeets, hrun, hclient => by
    obtain ⟨M, hM, hrun⟩ := Machine.run_cons_eq_some.mp hrun
    obtain ⟨hstays, hkeeps⟩ := h.keeps hmeets.1 hM hclient
    obtain ⟨hend, hguards, hkeeps'⟩ :=
      (h.step hmeets.1 hM).keeps_run (hmeets.2 M hM) hrun hstays
    exact ⟨hend, hguards, hkeeps.trans hkeeps'⟩

/-- The clients that `start` has found are never closed in a run in which it is called once, nobody
runs the idle closer before it has returned, and the router is not closed: each keeps the
dispatcher task it has, which runs unless it ends of itself. -/
theorem start_protects {supports : ℕ → Bool} {clients : ClientTable} {pubKeyHex : String}
    {clock : ℚ} {as bs : List LifeAct}
    (hmeets : Machine.Meets (step pipelined) OneStart (created supports clients pubKeyHex clock) as)
    (hrun : Machine.run (step pipelined) (created supports clients pubKeyHex clock) as = some L)
    (hmeets' : Machine.Meets (step pipelined) OneStart L bs)
    (hrun' : Machine.run (step pipelined) L bs = some L')
    (hclient : client ∈ L.pool.protectedClients) :
    client ∈ L'.pool.protectedClients ∧ L'.pool.Receives client ∧ ∃ d,
      (L.pool.session client).dispatcherTask = some d ∧
        (L'.pool.session client).dispatcherTask = some d ∧
        ((L'.pool.session client).Running ∨ (L'.pool.session client).EndedItself) := by
  have hguards : L.Guards := Machine.run_invariant (fun _ _ _ h ha hs => h.step ha hs)
    (guards_created supports clients pubKeyHex clock) hmeets hrun
  obtain ⟨hstays, hguards', hkeeps⟩ := hguards.keeps_run hmeets' hrun' hclient
  have hreceives := hguards'.receives client hstays
  obtain ⟨d, hd⟩ := Option.ne_none_iff_exists'.mp (hguards.receives client hclient).task
  exact ⟨hstays, hreceives, d, hd, hkeeps d hd,
    hreceives.untouched.running_or_ended hreceives.task⟩

def ownBroker : BrokerClient := ⟨2, "a", 1883⟩

/-- `start` connects the router's one client and returns it. -/
def connectsOwn : List LifeAct :=
  [.start, .tryClient 0 ownBroker] ++
    (Act.reply 0 .done false :: upToSuback 0 ++ [Act.reply 0 (.codes [1]) false]).map
      (fun b => .pool (.session ownBroker b)) ++
    [.discovered 0 [ownBroker]]

def idlePass : List LifeAct :=
  [.pool (.tick 7000), .pool .wake, .pool (.advance 0), .pool (.advance 0), .pool (.advance 0)]

theorem start_protects_own : ∃ L L', Machine.run (step false)
      (created (fun _ => true) (((∅ : ClientTable).set 2 ((∅ : PyDict String BrokerClient).set "a"
        ownBroker)).set 10 ∅) "me" 0) connectsOwn = some L ∧
    Machine.run (step false) L idlePass = some L' ∧ L'.pool.clock = 7000 ∧
    ownBroker ∈ L'.pool.protectedClients ∧ L'.pool.Receives ownBroker ∧ ∃ d,
      (L.pool.session ownBroker).dispatcherTask = some d ∧
        (L'.pool.session ownBroker).dispatcherTask = some d ∧
        ((L'.pool.session ownBroker).Running ∨ (L'.pool.session ownBroker).EndedItself) := by
  obtain ⟨L, hrun, hmeets, hp⟩ := Machine.exists_runMeeting_of_any (step false) OneStart
    (created (fun _ => true) (((∅ : ClientTable).set 2 ((∅ : PyDict String BrokerClient).set "a"
      ownBroker)).set 10 ∅) "me" 0) connectsOwn
    (fun L => ownBroker ∈ L.pool.protectedClients && (Machine.runMeeting (step false) OneStart L
      idlePass).any fun L' => L'.pool.clock = 7000) (by decide +kernel)
  obtain ⟨hclient, hp⟩ := Bool.and_eq_true_iff.mp hp
  obtain ⟨L', hrun', hmeets', hclock⟩ :=
    Machine.exists_runMeeting_of_any (step false) OneStart L idlePass _ hp
  exact ⟨L, L', hrun, hrun', of_decide_eq_true hclock,
    start_protects hmeets hrun hmeets' hrun' (of_decide_eq_true hclient)⟩

end RouterLife

end Sidewire
