import Sidewire.Pool.Basic

/-! # What a step can do

The inversion lemmas of the pool. A step lets a client take one step of its own,
or a new client appears; it moves at most one pass; and it changes the cache and
the pipes in few ways. Everything else is derived from these lemmas.
-/

namespace Sidewire

namespace Pool

open Session

variable {pipelined : Bool} {P Q : Pool} {a : PoolAct} {client : BrokerClient} {j : ℕ}
  {place : PassAt} {s t : Session}

@[simp] theorem session_setPlace : (P.setPlace j place).session = P.session := rfl

@[simp] theorem clients_setPlace : (P.setPlace j place).clients = P.clients := rfl

@[simp] theorem cache_setPlace : (P.setPlace j place).cache = P.cache := rfl

@[simp] theorem pipes_setPlace : (P.setPlace j place).pipes = P.pipes := rfl

@[simp] theorem left_setPlace : (P.setPlace j place).left = P.left := rfl

@[simp] theorem session_visit : (P.visit j client).session = P.session := rfl

@[simp] theorem clients_visit : (P.visit j client).clients = P.clients := rfl

@[simp] theorem cache_visit : (P.visit j client).cache = P.cache := rfl

@[simp] theorem pipes_visit : (P.visit j client).pipes = P.pipes := rfl

@[simp] theorem left_visit : (P.visit j client).left = P.left := rfl

@[simp] theorem session_evict : (P.evictClientFromCache client).session = P.session := rfl

@[simp] theorem clients_evict : (P.evictClientFromCache client).clients = P.clients := rfl

@[simp] theorem pipes_evict : (P.evictClientFromCache client).pipes = P.pipes := rfl

@[simp] theorem passes_evict : (P.evictClientFromCache client).passes = P.passes := rfl

@[simp] theorem left_evict : (P.evictClientFromCache client).left = P.left := rfl

@[simp] theorem session_leave (sweep : Sweep) : (P.leave sweep client).session = P.session := by
  unfold leave
  split <;> rfl

@[simp] theorem clients_leave (sweep : Sweep) : (P.leave sweep client).clients = P.clients := by
  unfold leave
  split <;> rfl

@[simp] theorem pipes_leave (sweep : Sweep) : (P.leave sweep client).pipes = P.pipes := by
  unfold leave
  split <;> rfl

@[simp] theorem passes_leave (sweep : Sweep) : (P.leave sweep client).passes = P.passes := by
  unfold leave
  split <;> rfl

@[simp] theorem passes_setSession : (P.setSession client s).passes = P.passes := rfl

theorem passes_setPlace (i : ℕ) : (P.setPlace j place).passes[i]? =
    if i = j then P.passes[i]?.map fun pass => { pass with place } else P.passes[i]? := by
  simp only [setPlace, List.getElem?_modify]
  by_cases h : i = j
  · simp [h]
  · simp [h, Ne.symm h]

theorem passes_visit (i : ℕ) : (P.visit j client).passes[i]? =
    if i = j then P.passes[i]?.map fun pass => { pass with visited := pass.visited ++ [client] }
    else P.passes[i]? := by
  simp only [visit, List.getElem?_modify]
  by_cases h : i = j
  · simp [h]
  · simp [h, Ne.symm h]

def grownError : AwaitExc := .other (.runtimeError "dictionary changed size during iteration")

theorem advance_spec (h : P.advance j = some Q) : ∃ sweep c visited table,
    P.passes[j]? = some ⟨sweep, .next c, visited⟩ ∧ P.clients.get? c.af = some table ∧
      (table.keys.length ≠ c.hosts.size ∧ Q = P.setPlace j (.raised grownError) ∨
        table.keys.length = c.hosts.size ∧
          (c.hosts.todo = [] ∧ Q = P.setPlace j (P.enter c.afs) ∨
            ∃ host todo client, c.hosts.todo = host :: todo ∧ table.get? host = some client ∧
              Q = P.sweepStep j sweep { c with hosts := ⟨c.hosts.size, todo⟩ } client)) := by
  unfold advance at h
  split at h
  next sweep af size todo afs visited hpass =>
    split at h
    · cases h
    next table htable =>
      refine ⟨sweep, _, visited, table, hpass, htable, ?_⟩
      split_ifs at h with hsize
      · exact Or.inl ⟨hsize, (Option.some.inj h).symm⟩
      · refine Or.inr ⟨not_not.mp hsize, ?_⟩
        split at h
        · exact Or.inl ⟨rfl, (Option.some.inj h).symm⟩
        next host todo =>
          split at h
          · cases h
          next client hclient =>
            exact Or.inr ⟨host, todo, client, rfl, hclient, (Option.some.inj h).symm⟩
  · cases h

theorem sweepStep_spec (P : Pool) (j : ℕ) (sweep : Sweep) (c : Cursor)
    (client : BrokerClient) :
    ∃ P' place, P.sweepStep j sweep c client = P'.setPlace j place ∧
      (P' = (P.setSession client (P.sweepClient sweep client)).visit j client ∨
        P' = evictClientFromCache
          ((P.setSession client (P.sweepClient sweep client)).visit j client) client) ∧
      (place = .next c ∧
          (∀ call, (P.sweepClient sweep client).calls[(P.session client).calls.length]? =
            some call → ∃ r, call = .over r) ∨
        place = .closing c client (P.session client).calls.length ∧
          ∃ call, (P.sweepClient sweep client).calls[(P.session client).calls.length]? =
            some call ∧ ∀ r, call ≠ .over r) := by
  simp only [sweepStep]
  split
  next hcall => exact ⟨_, _, rfl, Or.inl rfl, Or.inl ⟨rfl, by simp [hcall]⟩⟩
  next r hcall => exact ⟨_, _, rfl, Or.inr rfl, Or.inl ⟨rfl, by simp [hcall]⟩⟩
  next call hover hcall =>
    refine ⟨_, _, rfl, Or.inl rfl, Or.inr ⟨rfl, call, hcall, ?_⟩⟩
    rintro r rfl
    exact hover r rfl

def Uncaught (sweep : Sweep) (exc : AwaitExc) : Prop :=
  ¬ (sweep.isIdle = true ∧ (exc = .osError ∨ exc = .connectionError))

instance (sweep : Sweep) (exc : AwaitExc) : Decidable (Uncaught sweep exc) :=
  inferInstanceAs (Decidable (¬ _))

theorem closeEnded_spec (P : Pool) (j : ℕ) (sweep : Sweep) (c : Cursor) (client : BrokerClient)
    (r : CallResult) :
    ((∀ exc, r = .failed exc → ¬ Uncaught sweep exc) ∧
        P.closeEnded j sweep c client r = (P.leave sweep client).setPlace j (.next c)) ∨
      ∃ exc, r = .failed exc ∧ Uncaught sweep exc ∧
        P.closeEnded j sweep c client r = P.setPlace j (.raised exc) := by
  unfold closeEnded
  split
  next exc =>
    split_ifs with hcaught
    · refine Or.inl ⟨?_, rfl⟩
      rintro _ ⟨⟩ hun
      exact hun hcaught
    · exact Or.inr ⟨exc, rfl, hcaught, rfl⟩
  next hclosed =>
    refine Or.inl ⟨?_, rfl⟩
    rintro exc rfl
    exact absurd rfl (hclosed exc)

theorem goesOn_spec {r : Reply} {atOnce : Bool} (h : P.goesOn pipelined j r atOnce = some Q) :
    ∃ sweep c client k visited s, P.passes[j]? = some ⟨sweep, .closing c client k, visited⟩ ∧
      (((P.session client).calls[k]?).any isClosing = true ∧
        (P.session client).resumeCall pipelined k r atOnce = some s) ∧
        ((∀ res, s.calls[k]? ≠ some (.over res)) ∧ Q = P.setSession client s ∨
          ∃ res, s.calls[k]? = some (.over res) ∧
            Q = (P.setSession client s).closeEnded j sweep c client res) := by
  unfold goesOn at h
  split at h
  next sweep c client k visited hpass =>
    split_ifs at h with hclosing
    obtain ⟨s, hs, hQ⟩ := Option.map_eq_some_iff.mp h
    refine ⟨sweep, c, client, k, visited, s, hpass, ⟨hclosing, hs⟩, ?_⟩
    simp only at hQ
    split at hQ
    next res hres => exact Or.inr ⟨res, hres, hQ.symm⟩
    next hres => exact Or.inl ⟨hres, hQ.symm⟩
  · cases h

theorem stopped_spec {closedFirst : Bool} (h : P.stopped pipelined j closedFirst = some Q) :
    ∃ visited P', P.passes[j]? = some ⟨.shutdown, .stopping, visited⟩ ∧
      (P' = P ∧ (∀ i, P.loop ≠ .passing i) ∨
        ∃ i, P.loop = .passing i ∧
          P.goesOn pipelined i (.raised .cancelledError closedFirst) false = some P') ∧
      Q = ({ P' with loop := .off } : Pool).setPlace j (P'.enter P'.clients.keys) := by
  unfold stopped at h
  split at h
  next visited hpass =>
    split at h
    next i hloop =>
      split at h
      next P' hP' =>
        exact ⟨visited, P', hpass, Or.inr ⟨i, hloop, hP'⟩, (Option.some.inj h).symm⟩
      · cases h
    next hloop =>
      exact ⟨visited, P, hpass, Or.inl ⟨rfl, hloop⟩, (Option.some.inj h).symm⟩
  · cases h

structure Makes (P : Pool) (client : BrokerClient) (table : PyDict String BrokerClient) : Prop where
  supports : P.supports client.af = true
  family : P.clients.get? client.af = some table
  free : table.get? client.host = none

def made (P : Pool) (client : BrokerClient) (table : PyDict String BrokerClient) : Pool :=
  { P with
    clients := P.clients.set client.af (table.set client.host client)
    session := Function.update P.session client {} }

theorem ensureClient_spec (P : Pool) (af : ℕ) (host : String) (port : ℕ) :
    P.ensureClient af host port = P ∨ ∃ table, Makes P ⟨af, host, port⟩ table ∧
      P.ensureClient af host port = P.made ⟨af, host, port⟩ table := by
  unfold ensureClient
  split
  next clients client h =>
    split_ifs with heq
    · exact Or.inl rfl
    · unfold Sidewire.ensureClient at h
      split_ifs at h with hsup
      · split at h
        · cases h
        next table htable =>
          split at h
          · cases h
            exact absurd rfl heq
          next hfree =>
            cases h
            exact Or.inr ⟨table, ⟨hsup, htable, hfree⟩, rfl⟩
      · cases h
  · exact Or.inl rfl

theorem Makes.ensureClient_eq {table : PyDict String BrokerClient} {af port : ℕ} {host : String}
    (h : Makes P ⟨af, host, port⟩ table) :
    P.ensureClient af host port = P.made ⟨af, host, port⟩ table := by
  have hnew : P.clients.set af (table.set host ⟨af, host, port⟩) ≠ P.clients := by
    intro heq
    have htable := h.family
    rw [← heq, PyDict.get?_set_self] at htable
    have hfree := h.free
    rw [← Option.some.inj htable, PyDict.get?_set_self] at hfree
    cases hfree
  simp only [ensureClient, Sidewire.ensureClient, h.supports, h.family, h.free, not_true_eq_false,
    if_false, if_neg hnew, made]

theorem Makes.not_has {table : PyDict String BrokerClient} (h : Makes P client table) :
    ¬ P.Has client := by
  rintro ⟨table', htable', hclient⟩
  cases h.family.symm.trans htable'
  cases h.free.symm.trans hclient

inductive Starts (P : Pool) : PoolAct → CloserLoop → Sweep → Prop
  | wake : P.loop = .sleeping → Starts P .wake (.passing P.passes.length) (.loop P.clock)
  | manual : Starts P .closeIdleClients P.loop (.manual P.clock)
  | close : P.loop ≠ .sleeping → (∀ i, P.loop ≠ .passing i) → Starts P .close .off .shutdown

inductive Move (pipelined : Bool) (P : Pool) : PoolAct → Pool → Prop where

  | tick {t : ℚ} : P.clock ≤ t → Move pipelined P (.tick t) { P with clock := t }

  | kept {a : PoolAct} : (∃ af host port, a = .ensureClient af host port) ∨ a = .startLoop →
      Move pipelined P a P

  | made {af port : ℕ} {host : String} {table : PyDict String BrokerClient} :
      Makes P ⟨af, host, port⟩ table →
      Move pipelined P (.ensureClient af host port) (P.made ⟨af, host, port⟩ table)

  | session {client : BrokerClient} {a : Act} {t : Session} : P.Has client →
      unwatched (P.session client) a = true →
      (P.session client).step pipelined a = some t →
      Move pipelined P (.session client a) { P.setSession client t with
        left :=
          if connects (P.session client) t a then Function.update P.left client false
          else P.left }

  | pipe {destPubHex : String} {useCache : Bool} {expiry : ℚ} :
      Move pipelined P (.pipe destPubHex useCache expiry) (P.pipe destPubHex useCache expiry)

  | tried {p : ℕ} {pipe : PipeCall} {client : BrokerClient} : P.pipes[p]? = some pipe →
      pipe.connected = false → P.Has client →
      Move pipelined P (.tryClient p client)
        { P.setSession client ((P.session client).start ((P.session client).tryClient P.clock)) with
          pipes := P.pipes.set p { pipe with
            tries := pipe.tries ++ [(client, (P.session client).calls.length)] } }

  | connected {p : ℕ} {pipe : PipeCall} {clients : List BrokerClient}
      {cache : PyDict String CacheEntry} : P.pipes[p]? = some pipe → pipe.connected = false →
      (∀ client ∈ clients, ∃ t ∈ pipe.tries, t.1 = client ∧ P.Tried t) →
      cache = (if pipe.useCache ∧ ¬ pipe.cached then P.cache.set pipe.destPubHex ⟨P.clock, clients⟩
        else P.cache) →
      Move pipelined P (.connected p clients)
        { P with pipes := P.pipes.set p { pipe with clients, connected := true }, cache }

  | sent {p : ℕ} {pipe : PipeCall} : P.pipes[p]? = some pipe → pipe.connected = true →
      Move pipelined P (.send p) { P with
        session := fun client =>
          if client ∈ pipe.clients then { P.session client with lastSend := some P.clock }
          else P.session client }

  | closedPipe {p : ℕ} {pipe : PipeCall} : P.pipes[p]? = some pipe → pipe.connected = true →
      Move pipelined P (.closePipe p) (pipe.clients.foldl evictClientFromCache
        { P with pipes := P.pipes.set p { pipe with closed := true } })

  | startLoop : P.loop ≠ .sleeping → (∀ i, P.loop ≠ .passing i) →
      Move pipelined P .startLoop { P with loop := .sleeping }

  | began {a : PoolAct} {loop : CloserLoop} {sweep : Sweep} : Starts P a loop sweep →
      Move pipelined P a (({ P with loop } : Pool).begin sweep)

  | stopping : P.loop = .sleeping ∨ (∃ i, P.loop = .passing i) →
      Move pipelined P .close { P with passes := P.passes ++ [⟨.shutdown, .stopping, []⟩] }

  | stopped {j : ℕ} {closedFirst : Bool} {visited : List BrokerClient} {P' : Pool} :
      P.passes[j]? = some ⟨.shutdown, .stopping, visited⟩ →
      (P' = P ∧ (∀ i, P.loop ≠ .passing i) ∨ ∃ i, P.loop = .passing i ∧
        P.goesOn pipelined i (.raised .cancelledError closedFirst) false = some P') →
      Move pipelined P (.stopped j closedFirst)
        (({ P' with loop := .off } : Pool).setPlace j (P'.enter P'.clients.keys))

  | advance {j : ℕ} {Q : Pool} : P.advance j = some Q → Move pipelined P (.advance j) Q

  | goesOn {j : ℕ} {r : Reply} {atOnce : Bool} {Q : Pool} :
      P.goesOn pipelined j r atOnce = some Q → Move pipelined P (.goesOn j r atOnce) Q

theorem act_move (h : P.act pipelined a = some Q) : Move pipelined P a Q := by
  cases a with
  | tick t =>
    simp only [act] at h
    split_ifs at h with hle
    cases h
    exact .tick hle
  | ensureClient af host port =>
    cases h
    rcases ensureClient_spec P af host port with heq | ⟨table, hmakes, heq⟩
    · rw [heq]
      exact .kept (Or.inl ⟨af, host, port, rfl⟩)
    · rw [heq]
      exact .made hmakes
  | session client a =>
    simp only [act, sessionStep] at h
    split_ifs at h with hallowed
    obtain ⟨t, ht, rfl⟩ := Option.map_eq_some_iff.mp h
    exact .session hallowed.2 hallowed.1 ht
  | pipe =>
    cases h
    exact .pipe
  | tryClient p client =>
    simp only [act, tryClient] at h
    split at h
    next pipe hpipe =>
      split_ifs at h with hconnected
      cases h
      push Not at hconnected
      exact .tried hpipe (by simpa using hconnected.1) hconnected.2
    · cases h
  | connected p clients =>
    simp only [act, connected] at h
    split at h
    next pipe hpipe =>
      split_ifs at h with hallowed hcache
      · cases h
        refine .connected hpipe (by simpa using hallowed.1) hallowed.2 ?_
        rw [if_pos hcache]
      · cases h
        refine .connected hpipe (by simpa using hallowed.1) hallowed.2 ?_
        rw [if_neg hcache]
    · cases h
  | send p =>
    simp only [act, send] at h
    split at h
    next pipe hpipe =>
      split_ifs at h with hconnected
      cases h
      exact .sent hpipe hconnected
    · cases h
  | closePipe p =>
    simp only [act, closePipe] at h
    split at h
    next pipe hpipe =>
      split_ifs at h with hconnected
      cases h
      exact .closedPipe hpipe hconnected
    · cases h
  | startLoop =>
    simp only [act] at h
    split at h
    · cases h
      exact .kept (Or.inr rfl)
    · cases h
      exact .kept (Or.inr rfl)
    next hsleeping hpassing =>
      cases h
      exact .startLoop hsleeping hpassing
  | wake =>
    simp only [act] at h
    split_ifs at h with hloop
    cases h
    exact .began (.wake hloop)
  | closeIdleClients =>
    cases h
    exact .began .manual
  | close =>
    simp only [act, close] at h
    split at h
    next hloop =>
      cases h
      exact .stopping (Or.inl hloop)
    next i hloop =>
      cases h
      exact .stopping (Or.inr ⟨i, hloop⟩)
    next hsleeping hpassing =>
      cases h
      exact .began (.close hsleeping hpassing)
  | stopped j closedFirst =>
    obtain ⟨visited, P', hpass, hP', rfl⟩ := stopped_spec h
    exact .stopped hpass hP'
  | advance j =>
    simp only [act] at h
    split_ifs at h
    exact .advance h
  | goesOn j r atOnce => exact .goesOn h

/-- Every step is one of these moves. -/
theorem step_move (h : P.step pipelined a = some Q) : Move pipelined P a Q := by
  unfold step at h
  split at h
  · exact act_move h
  · split_ifs at h with ha
    rw [ha]
    exact .advance h

@[simp] theorem session_closeEnded (sweep : Sweep) (c : Cursor) (r : CallResult) :
    (P.closeEnded j sweep c client r).session = P.session := by
  unfold closeEnded
  split
  · split <;> simp
  · simp

@[simp] theorem clients_closeEnded (sweep : Sweep) (c : Cursor) (r : CallResult) :
    (P.closeEnded j sweep c client r).clients = P.clients := by
  unfold closeEnded
  split
  · split <;> simp
  · simp

@[simp] theorem pipes_closeEnded (sweep : Sweep) (c : Cursor) (r : CallResult) :
    (P.closeEnded j sweep c client r).pipes = P.pipes := by
  unfold closeEnded
  split
  · split <;> simp
  · simp

theorem session_sweepStep (sweep : Sweep) (c : Cursor) :
    (P.sweepStep j sweep c client).session =
      Function.update P.session client (P.sweepClient sweep client) := by
  obtain ⟨P', place, heq, rfl | rfl, -⟩ := sweepStep_spec P j sweep c client <;> rw [heq] <;> rfl

@[simp] theorem clients_sweepStep (sweep : Sweep) (c : Cursor) :
    (P.sweepStep j sweep c client).clients = P.clients := by
  obtain ⟨P', place, heq, rfl | rfl, -⟩ := sweepStep_spec P j sweep c client <;> rw [heq] <;> rfl

@[simp] theorem pipes_sweepStep (sweep : Sweep) (c : Cursor) :
    (P.sweepStep j sweep c client).pipes = P.pipes := by
  obtain ⟨P', place, heq, rfl | rfl, -⟩ := sweepStep_spec P j sweep c client <;> rw [heq] <;> rfl

theorem goesOn_frame {r : Reply} {atOnce : Bool} (h : P.goesOn pipelined j r atOnce = some Q) :
    Q.clients = P.clients ∧ Q.pipes = P.pipes := by
  obtain ⟨_, _, _, _, _, s, -, -, ⟨-, rfl⟩ | ⟨_, -, rfl⟩⟩ := goesOn_spec h
  · exact ⟨rfl, rfl⟩
  · exact ⟨clients_closeEnded .., pipes_closeEnded ..⟩

theorem advance_frame (h : P.advance j = some Q) :
    Q.clients = P.clients ∧ Q.pipes = P.pipes := by
  obtain ⟨_, _, _, _, -, -, ⟨-, rfl⟩ | ⟨-, ⟨-, rfl⟩ | ⟨_, _, _, -, -, rfl⟩⟩⟩ := advance_spec h
  · exact ⟨rfl, rfl⟩
  · exact ⟨rfl, rfl⟩
  · exact ⟨clients_sweepStep .., pipes_sweepStep ..⟩

theorem foldl_evict (clients : List BrokerClient) (P : Pool) :
    ∃ cache, clients.foldl evictClientFromCache P = { P with cache } := by
  induction clients generalizing P with
  | nil => exact ⟨P.cache, rfl⟩
  | cons client clients ih => exact ih (P.evictClientFromCache client)

theorem Move.clients (h : Move pipelined P a Q) : Q.clients = P.clients ∨
    ∃ client table, a = .ensureClient client.af client.host client.port ∧ Makes P client table ∧
      Q = P.made client table := by
  cases h with
  | made hmakes => exact Or.inr ⟨_, _, rfl, hmakes, rfl⟩
  | closedPipe =>
    obtain ⟨cache, heq⟩ := foldl_evict _ _
    rw [heq]
    exact Or.inl rfl
  | stopped hpass hP' =>
    rcases hP' with ⟨rfl, -⟩ | ⟨i, -, hgoes⟩
    · exact Or.inl rfl
    · exact Or.inl (goesOn_frame hgoes).1
  | advance hadv => exact Or.inl (advance_frame hadv).1
  | goesOn hgoes => exact Or.inl (goesOn_frame hgoes).1
  | _ => exact Or.inl rfl

theorem sweepClient_step (pipelined : Bool) (P : Pool) (sweep : Sweep) (client : BrokerClient) :
    P.sweepClient sweep client = P.session client ∨
      ∃ b, ((∃ now, b = Act.idleClose now) ∨ b = .routerClose) ∧
        (P.session client).step pipelined b = some (P.sweepClient sweep client) := by
  cases sweep with
  | shutdown => exact Or.inr ⟨.routerClose, Or.inr rfl, rfl⟩
  | loop now | manual now =>
    by_cases hprotected : client ∈ P.protectedClients
    · exact Or.inl (if_pos hprotected)
    · refine Or.inr ⟨.idleClose now, Or.inl ⟨now, rfl⟩, congrArg some ?_⟩
      exact (if_neg hprotected).symm

def comesTo (P : Pool) (j : ℕ) : Option (Sweep × BrokerClient) :=
  match P.passes[j]? with
  | some ⟨sweep, .next c, _⟩ =>
    (c.hosts.todo.head?.bind fun host => (P.clients.get? c.af).bind fun table =>
      table.get? host).map fun client => (sweep, client)
  | _ => none

theorem comesTo_eq {sweep : Sweep} {c : Cursor} {visited : List BrokerClient}
    {table : PyDict String BrokerClient} {host : String} {todo : List String}
    (hpass : P.passes[j]? = some ⟨sweep, .next c, visited⟩)
    (htable : P.clients.get? c.af = some table) (htodo : c.hosts.todo = host :: todo)
    (hclient : table.get? host = some client) : P.comesTo j = some (sweep, client) := by
  simp only [comesTo, hpass, htodo, List.head?_cons, Option.bind_some, htable, hclient,
    Option.map_some]

inductive SessionMove (pipelined : Bool) (P : Pool) (a : PoolAct) (client : BrokerClient) :
    Session → Prop where

  | same : SessionMove pipelined P a client (P.session client)

  | own {b : Act} {t : Session} : a = .session client b → unwatched (P.session client) b = true →
      (P.session client).step pipelined b = some t → SessionMove pipelined P a client t

  | tried {p : ℕ} : a = .tryClient p client →
      SessionMove pipelined P a client
        ((P.session client).start ((P.session client).tryClient P.clock))

  | sent : SessionMove pipelined P a client { P.session client with lastSend := some P.clock }

  | swept {j : ℕ} {sweep : Sweep} : a = .advance j → P.comesTo j = some (sweep, client) →
      SessionMove pipelined P a client (P.sweepClient sweep client)

  | closes {j k : ℕ} {sweep : Sweep} {c : Cursor} {visited : List BrokerClient} {r : Reply}
      {atOnce : Bool} {s : Session} :
      ((∃ i r atOnce, a = .goesOn i r atOnce) ∨ ∃ i b, a = .stopped i b) →
      P.passes[j]? = some ⟨sweep, .closing c client k, visited⟩ →
      ((P.session client).calls[k]?).any isClosing = true →
      (P.session client).resumeCall pipelined k r atOnce = some s →
      SessionMove pipelined P a client s

  | made : ¬ P.Has client → SessionMove pipelined P a client {}

theorem goesOn_session {r : Reply} {atOnce : Bool} (h : P.goesOn pipelined j r atOnce = some Q)
    (ha : (∃ i r atOnce, a = .goesOn i r atOnce) ∨ ∃ i b, a = .stopped i b)
    (client : BrokerClient) : SessionMove pipelined P a client (Q.session client) := by
  obtain ⟨sweep, c, closing, k, visited, s, hpass, ⟨hcall, hs⟩, hQ⟩ := goesOn_spec h
  have hsession : Q.session = Function.update P.session closing s := by
    rcases hQ with ⟨-, rfl⟩ | ⟨_, -, rfl⟩
    · rfl
    · simp [setSession]
  rw [hsession, Function.update_apply]
  split_ifs with heq
  · exact .closes ha (heq ▸ hpass) (heq ▸ hcall) (heq ▸ hs)
  · exact .same

theorem Move.session_move (h : Move pipelined P a Q) (client : BrokerClient) :
    SessionMove pipelined P a client (Q.session client) := by
  cases h with
  | @made af port host table hmakes =>
    simp only [Pool.made, Function.update_apply]
    split_ifs with heq
    · exact .made (heq ▸ hmakes.not_has)
    · exact .same
  | @session moved b t _ hallowed ht =>
    simp only [setSession, Function.update_apply]
    split_ifs with heq
    · subst heq
      exact .own rfl hallowed ht
    · exact .same
  | @tried p pipe moved _ _ _ =>
    simp only [setSession, Function.update_apply]
    split_ifs with heq
    · subst heq
      exact .tried rfl
    · exact .same
  | @sent p pipe _ _ =>
    dsimp only
    split_ifs
    · exact .sent
    · exact .same
  | closedPipe =>
    obtain ⟨cache, heq⟩ := foldl_evict _ _
    rw [heq]
    exact .same
  | stopped hpass hP' =>
    rcases hP' with ⟨rfl, -⟩ | ⟨i, -, hgoes⟩
    · exact .same
    · exact goesOn_session hgoes (Or.inr ⟨_, _, rfl⟩) client
  | advance hadv =>
    obtain ⟨_, _, _, _, hpass, htable, ⟨-, rfl⟩ | ⟨-, ⟨-, rfl⟩ | ⟨_, _, moved, htodo, hmoved, rfl⟩⟩⟩ :=
      advance_spec hadv
    · exact .same
    · exact .same
    · rw [session_sweepStep, Function.update_apply]
      split_ifs with heq
      · subst heq
        exact .swept rfl (comesTo_eq hpass htable htodo hmoved)
      · exact .same
  | goesOn hgoes => exact goesOn_session hgoes (Or.inl ⟨_, _, _, rfl⟩) client
  | _ => exact .same

inductive PassMove (pipelined : Bool) (P : Pool) (a : PoolAct) (j : ℕ) (Q : Pool) : Prop where

  | same : Q.passes[j]? = P.passes[j]? → PassMove pipelined P a j Q

  | entered {visited : List BrokerClient} :
      P.passes[j]? = some ⟨.shutdown, .stopping, visited⟩ →
      Q.passes[j]? = some ⟨.shutdown, P.enter P.clients.keys, visited⟩ →
      PassMove pipelined P a j Q

  | grown {sweep : Sweep} {c : Cursor} {visited : List BrokerClient}
      {table : PyDict String BrokerClient} : P.passes[j]? = some ⟨sweep, .next c, visited⟩ →
      P.clients.get? c.af = some table → table.keys.length ≠ c.hosts.size →
      Q.passes[j]? = some ⟨sweep, .raised grownError, visited⟩ → PassMove pipelined P a j Q

  | family {sweep : Sweep} {c : Cursor} {visited : List BrokerClient}
      {table : PyDict String BrokerClient} : P.passes[j]? = some ⟨sweep, .next c, visited⟩ →
      P.clients.get? c.af = some table → table.keys.length = c.hosts.size → c.hosts.todo = [] →
      Q.passes[j]? = some ⟨sweep, P.enter c.afs, visited⟩ → PassMove pipelined P a j Q

  | took {sweep : Sweep} {c : Cursor} {visited : List BrokerClient}
      {table : PyDict String BrokerClient} {host : String} {todo : List String}
      {client : BrokerClient} {place : PassAt} : P.passes[j]? = some ⟨sweep, .next c, visited⟩ →
      P.clients.get? c.af = some table → table.keys.length = c.hosts.size →
      c.hosts.todo = host :: todo → table.get? host = some client →
      Q.session client = P.sweepClient sweep client →
      Q.passes[j]? = some ⟨sweep, place, visited ++ [client]⟩ →
      (place = .next { c with hosts := ⟨c.hosts.size, todo⟩ } ∧
          (∀ call, (Q.session client).calls[(P.session client).calls.length]? = some call →
            ∃ r, call = .over r) ∨
        place = .closing { c with hosts := ⟨c.hosts.size, todo⟩ } client
          (P.session client).calls.length) →
      PassMove pipelined P a j Q

  | ended {sweep : Sweep} {c : Cursor} {client : BrokerClient} {k : ℕ}
      {visited : List BrokerClient} {r : Reply} {atOnce : Bool} {s : Session} {res : CallResult}
      {place : PassAt} : P.passes[j]? = some ⟨sweep, .closing c client k, visited⟩ →
      (a = .goesOn j r atOnce ∨ P.loop = .passing j ∧ ∃ i b, a = .stopped i b) →
      (P.session client).resumeCall pipelined k r atOnce = some s →
      s.calls[k]? = some (.over res) → Q.session client = s →
      Q.passes[j]? = some ⟨sweep, place, visited⟩ →
      (place = .next c ∧ (∀ exc, res = .failed exc → ¬ Uncaught sweep exc) ∨
        ∃ exc, place = .raised exc ∧ res = .failed exc ∧ Uncaught sweep exc) →
      PassMove pipelined P a j Q

theorem enter_congr (h : Q.clients = P.clients) (afs : List ℕ) : Q.enter afs = P.enter afs := by
  cases afs with
  | nil => rfl
  | cons af afs => simp only [enter, h]

theorem passes_setPlace_self {P' : Pool} {pass : Pass} (h : P'.passes[j]? = some pass) :
    (P'.setPlace j place).passes[j]? = some { pass with place } := by
  simp [passes_setPlace, h]

theorem passes_setPlace_ne {i : ℕ} (h : i ≠ j) :
    (P.setPlace j place).passes[i]? = P.passes[i]? := by
  simp [passes_setPlace, h]

theorem advance_passes_ne (h : P.advance j = some Q) {i : ℕ} (hi : i ≠ j) :
    Q.passes[i]? = P.passes[i]? := by
  obtain ⟨sweep, c, _, _, -, -, ⟨-, rfl⟩ | ⟨-, ⟨-, rfl⟩ | ⟨host, todo, client, -, -, rfl⟩⟩⟩ :=
    advance_spec h
  · exact passes_setPlace_ne hi
  · exact passes_setPlace_ne hi
  · obtain ⟨P', place, heq, hP', -⟩ := sweepStep_spec P j sweep
      { c with hosts := ⟨c.hosts.size, todo⟩ } client
    rw [heq, passes_setPlace_ne hi]
    rcases hP' with rfl | rfl <;> simp [passes_visit, hi]

theorem advance_pass (h : P.advance j = some Q) (i : ℕ) : PassMove pipelined P a i Q := by
  obtain ⟨sweep, c, visited, table, hpass, htable, hQ⟩ := advance_spec h
  by_cases hi : i = j
  · subst hi
    rcases hQ with ⟨hsize, rfl⟩ | ⟨hsize, ⟨htodo, rfl⟩ | ⟨host, todo, client, htodo, hclient, hQ⟩⟩
    · exact .grown hpass htable hsize (passes_setPlace_self hpass)
    · exact .family hpass htable hsize htodo (passes_setPlace_self hpass)
    · have hsession :
          (P.sweepStep i sweep { c with hosts := ⟨c.hosts.size, todo⟩ } client).session =
            Function.update P.session client (P.sweepClient sweep client) := session_sweepStep ..
      rw [← hQ] at hsession
      have hself : Q.session client = P.sweepClient sweep client := by
        rw [hsession, Function.update_self]
      obtain ⟨P', place, heq, hP', hplace⟩ := sweepStep_spec P i sweep
        { c with hosts := ⟨c.hosts.size, todo⟩ } client
      have hvisited : P'.passes[i]? = some ⟨sweep, .next c, visited ++ [client]⟩ := by
        rcases hP' with rfl | rfl <;> simp [passes_visit, hpass]
      apply PassMove.took hpass htable hsize htodo hclient hself
      · rw [hQ, heq]
        exact passes_setPlace_self hvisited
      · rw [hself]
        rcases hplace with ⟨hnext, hover⟩ | ⟨hclosing, -⟩
        · exact Or.inl ⟨hnext, hover⟩
        · exact Or.inr hclosing
  · exact .same (advance_passes_ne h hi)

theorem passes_closeEnded_ne {i : ℕ} (hi : i ≠ j) (sweep : Sweep) (c : Cursor) (r : CallResult) :
    (P.closeEnded j sweep c client r).passes[i]? = P.passes[i]? := by
  rcases closeEnded_spec P j sweep c client r with ⟨-, heq⟩ | ⟨exc, -, -, heq⟩
  · rw [heq, passes_setPlace_ne hi, passes_leave]
  · rw [heq, passes_setPlace_ne hi]

theorem goesOn_passes_ne {r : Reply} {atOnce : Bool} (h : P.goesOn pipelined j r atOnce = some Q)
    {i : ℕ} (hi : i ≠ j) : Q.passes[i]? = P.passes[i]? := by
  obtain ⟨_, _, _, _, _, s, -, -, ⟨-, rfl⟩ | ⟨_, -, rfl⟩⟩ := goesOn_spec h
  · rfl
  · rw [passes_closeEnded_ne hi, passes_setSession]

theorem goesOn_pass {r : Reply} {atOnce : Bool} (h : P.goesOn pipelined j r atOnce = some Q)
    (ha : a = .goesOn j r atOnce ∨ P.loop = .passing j ∧ ∃ i b, a = .stopped i b) :
    PassMove pipelined P a j Q := by
  obtain ⟨sweep, c, client, k, visited, s, hpass, ⟨-, hs⟩, ⟨-, rfl⟩ | ⟨res, hres, hQ⟩⟩ :=
    goesOn_spec h
  · exact .same rfl
  · have hself : Q.session client = s := by simp [hQ, setSession]
    rcases closeEnded_spec (P.setSession client s) j sweep c client res with
      ⟨hcaught, heq⟩ | ⟨exc, hexc, hun, heq⟩
    · have hleft : ((P.setSession client s).leave sweep client).passes[j]? =
          some ⟨sweep, .closing c client k, visited⟩ := by simpa using hpass
      refine .ended hpass ha hs hres hself ?_ (Or.inl ⟨rfl, hcaught⟩)
      rw [hQ, heq]
      exact passes_setPlace_self hleft
    · refine .ended hpass ha hs hres hself ?_ (Or.inr ⟨exc, rfl, hexc, hun⟩)
      rw [hQ, heq]
      exact passes_setPlace_self hpass

theorem PassMove.congr {Q' : Pool} (h : PassMove pipelined P a j Q)
    (hpasses : Q'.passes[j]? = Q.passes[j]?) (hsession : Q'.session = Q.session) :
    PassMove pipelined P a j Q' := by
  cases h with
  | same hsame => exact .same (hpasses.trans hsame)
  | entered hpass hQ => exact .entered hpass (hpasses.trans hQ)
  | grown hpass htable hsize hQ => exact .grown hpass htable hsize (hpasses.trans hQ)
  | family hpass htable hsize htodo hQ => exact .family hpass htable hsize htodo (hpasses.trans hQ)
  | took hpass htable hsize htodo hclient hself hQ hplace =>
    exact .took hpass htable hsize htodo hclient (hsession ▸ hself) (hpasses.trans hQ)
      (hsession ▸ hplace)
  | ended hpass ha hs hres hself hQ hplace =>
    exact .ended hpass ha hs hres (hsession ▸ hself) (hpasses.trans hQ) hplace

theorem Move.pass (h : Move pipelined P a Q) (hj : j < P.passes.length) :
    PassMove pipelined P a j Q := by
  cases h with
  | closedPipe =>
    obtain ⟨cache, heq⟩ := foldl_evict _ _
    rw [heq]
    exact .same rfl
  | began =>
    apply PassMove.same
    rw [begin, passes_setPlace_ne hj.ne]
    exact List.getElem?_append_left hj
  | stopping => exact .same (List.getElem?_append_left hj)
  | @stopped i closedFirst visited P' hpass hP' =>
    rcases hP' with ⟨rfl, hloop⟩ | ⟨l, hloop, hgoes⟩
    · by_cases hi : j = i
      · subst hi
        exact .entered hpass (passes_setPlace_self hpass)
      · exact .same (passes_setPlace_ne hi)
    · have hl : i ≠ l := by
        rintro rfl
        obtain ⟨_, _, _, _, _, _, hclosing, -⟩ := goesOn_spec hgoes
        cases hpass.symm.trans hclosing
      by_cases hi : j = i
      · subst hi
        have hP' := (goesOn_passes_ne hgoes hl).trans hpass
        have hclients := (goesOn_frame hgoes).1
        rw [enter_congr hclients, hclients]
        exact .entered hpass (passes_setPlace_self hP')
      · have hQ : (({ P' with loop := .off } : Pool).setPlace i
            (P'.enter P'.clients.keys)).passes[j]? = P'.passes[j]? := passes_setPlace_ne hi
        by_cases hjl : j = l
        · subst hjl
          exact (goesOn_pass hgoes (Or.inr ⟨hloop, i, closedFirst, rfl⟩)).congr hQ rfl
        · exact .same (hQ.trans (goesOn_passes_ne hgoes hjl))
  | advance hadv => exact advance_pass hadv j
  | @goesOn i r atOnce _ hgoes =>
    by_cases hi : j = i
    · subst hi
      exact goesOn_pass hgoes (Or.inl rfl)
    · exact .same (goesOn_passes_ne hgoes hi)
  | _ => exact .same rfl

@[simp] theorem sweeps_setPlace :
    (P.setPlace j place).passes.map Pass.sweep = P.passes.map Pass.sweep := by
  apply List.ext_getElem?
  intro i
  rw [List.getElem?_map, List.getElem?_map, passes_setPlace]
  split_ifs
  · cases P.passes[i]? <;> rfl
  · rfl

@[simp] theorem sweeps_visit :
    (P.visit j client).passes.map Pass.sweep = P.passes.map Pass.sweep := by
  apply List.ext_getElem?
  intro i
  rw [List.getElem?_map, List.getElem?_map, passes_visit]
  split_ifs
  · cases P.passes[i]? <;> rfl
  · rfl

theorem sweeps_goesOn {r : Reply} {atOnce : Bool} (h : P.goesOn pipelined j r atOnce = some Q) :
    Q.passes.map Pass.sweep = P.passes.map Pass.sweep := by
  obtain ⟨sweep, c, client, _, _, s, -, -, ⟨-, rfl⟩ | ⟨res, -, rfl⟩⟩ := goesOn_spec h
  · rfl
  · rcases closeEnded_spec (P.setSession client s) j sweep c client res with
      ⟨-, heq⟩ | ⟨exc, -, -, heq⟩
    · rw [heq, sweeps_setPlace, passes_leave, passes_setSession]
    · rw [heq, sweeps_setPlace, passes_setSession]

theorem sweeps_advance (h : P.advance j = some Q) :
    Q.passes.map Pass.sweep = P.passes.map Pass.sweep := by
  obtain ⟨sweep, c, _, _, -, -, ⟨-, rfl⟩ | ⟨-, ⟨-, rfl⟩ | ⟨_, todo, client, -, -, rfl⟩⟩⟩ :=
    advance_spec h
  · exact sweeps_setPlace
  · exact sweeps_setPlace
  · obtain ⟨P', place, heq, rfl | rfl, -⟩ := sweepStep_spec P j sweep
      { c with hosts := ⟨c.hosts.size, todo⟩ } client
    · rw [heq, sweeps_setPlace, sweeps_visit, passes_setSession]
    · rw [heq, sweeps_setPlace, passes_evict, sweeps_visit, passes_setSession]

theorem loopAfter_congr (h : Q.loop = P.loop) : Q.loopAfter j place = P.loopAfter j place := by
  simp only [loopAfter, h]

theorem loopAfter_ne {i : ℕ} (h : P.loop = .passing j) (hi : i ≠ j) :
    P.loopAfter i place = .passing j := by
  have hne : P.loop ≠ .passing i := by
    rw [h]
    rintro ⟨⟩
    exact hi rfl
  unfold loopAfter
  rw [if_neg hne, h]

theorem loop_leave (sweep : Sweep) : (P.leave sweep client).loop = P.loop := by
  unfold leave
  split <;> rfl

theorem placed {P' : Pool} {pass : Pass} (hQ : Q = P'.setPlace j place)
    (hpass : P'.passes[j]? = some pass) (hloop : P'.loop = P.loop) :
    ∃ pass, Q.passes[j]? = some pass ∧ Q.loop = P.loopAfter j pass.place := by
  subst hQ
  exact ⟨_, passes_setPlace_self hpass, loopAfter_congr hloop⟩

theorem advance_loop (h : P.advance j = some Q) :
    ∃ pass, Q.passes[j]? = some pass ∧ Q.loop = P.loopAfter j pass.place := by
  obtain ⟨sweep, c, visited, _, hpass, -, ⟨-, rfl⟩ | ⟨-, ⟨-, rfl⟩ | ⟨_, todo, client, -, -, hQ⟩⟩⟩ :=
    advance_spec h
  · exact placed rfl hpass rfl
  · exact placed rfl hpass rfl
  · obtain ⟨P', place, heq, hP', -⟩ := sweepStep_spec P j sweep
      { c with hosts := ⟨c.hosts.size, todo⟩ } client
    have hvisited : P'.passes[j]? = some ⟨sweep, .next c, visited ++ [client]⟩ := by
      rcases hP' with rfl | rfl <;> simp [passes_visit, hpass]
    have hloop : P'.loop = P.loop := by rcases hP' with rfl | rfl <;> rfl
    exact placed (hQ.trans heq) hvisited hloop

theorem goesOn_loop {r : Reply} {atOnce : Bool} (h : P.goesOn pipelined j r atOnce = some Q) :
    Q.loop = P.loop ∧ Q.passes[j]? = P.passes[j]? ∨
      ∃ pass, Q.passes[j]? = some pass ∧ Q.loop = P.loopAfter j pass.place := by
  obtain ⟨sweep, c, client, k, visited, s, hpass, -, ⟨-, rfl⟩ | ⟨res, -, hQ⟩⟩ := goesOn_spec h
  · exact Or.inl ⟨rfl, rfl⟩
  · apply Or.inr
    rcases closeEnded_spec (P.setSession client s) j sweep c client res with
      ⟨-, heq⟩ | ⟨exc, -, -, heq⟩
    · have hleft : ((P.setSession client s).leave sweep client).passes[j]? =
          some ⟨sweep, .closing c client k, visited⟩ := by simpa using hpass
      exact placed (hQ.trans heq) hleft (loop_leave sweep)
    · exact placed (hQ.trans heq) hpass rfl

theorem Move.loop (h : Move pipelined P a Q) (hloop : P.loop = .passing j)
    (hj : j < P.passes.length) (ha : ∀ i b, a ≠ .stopped i b) :
    Q.loop = .passing j ∧ Q.passes[j]? = P.passes[j]? ∨
      ∃ pass, Q.passes[j]? = some pass ∧ Q.loop = P.loopAfter j pass.place := by
  cases h with
  | closedPipe =>
    obtain ⟨cache, heq⟩ := foldl_evict _ _
    rw [heq]
    exact Or.inl ⟨hloop, rfl⟩
  | startLoop _ hpassing => exact absurd hloop (hpassing j)
  | began hstarts =>
    cases hstarts with
    | wake hsleeping => cases hloop.symm.trans hsleeping
    | manual =>
      refine Or.inl ⟨loopAfter_ne hloop hj.ne', ?_⟩
      rw [begin, passes_setPlace_ne hj.ne]
      exact List.getElem?_append_left hj
    | close _ hpassing => exact absurd hloop (hpassing j)
  | stopping => exact Or.inl ⟨hloop, List.getElem?_append_left hj⟩
  | stopped => exact absurd rfl (ha _ _)
  | @advance i _ hadv =>
    by_cases hi : j = i
    · subst hi
      exact Or.inr (advance_loop hadv)
    · obtain ⟨pass, -, hQ⟩ := advance_loop hadv
      exact Or.inl ⟨hQ.trans (loopAfter_ne hloop (Ne.symm hi)), advance_passes_ne hadv hi⟩
  | @goesOn i r atOnce _ hgoes =>
    by_cases hi : j = i
    · subst hi
      rcases goesOn_loop hgoes with ⟨hQ, hsame⟩ | hplaced
      · exact Or.inl ⟨hQ.trans hloop, hsame⟩
      · exact Or.inr hplaced
    · refine Or.inl ⟨?_, goesOn_passes_ne hgoes hi⟩
      rcases goesOn_loop hgoes with ⟨hQ, -⟩ | ⟨pass, -, hQ⟩
      · exact hQ.trans hloop
      · exact hQ.trans (loopAfter_ne hloop (Ne.symm hi))
  | _ => exact Or.inl ⟨hloop, rfl⟩

end Pool

end Sidewire
