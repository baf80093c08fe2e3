import Sidewire.Lib.Machine
import Sidewire.Pool.Cache
import Sidewire.Pool.Passes
import Sidewire.Session.Serving

/-! # Pipes that hold clients

A pipe keeps the clients it was given, and sending on it queues on them without
looking whether they are still connected. They are, as long as the idle closer
begins no close of a client that an open pipe holds or that a discovery has been
returned, and nobody is given a client that is being closed.
-/

namespace Sidewire

namespace Pool

open Session

variable {pipelined atOnce : Bool} {P₀ P Q : Pool} {a : PoolAct} {as : List PoolAct}
  {client : BrokerClient} {j : ℕ} {r : Reply} {s t : Session} {sweep : Sweep}

def Held (P : Pool) (client : BrokerClient) : Prop :=
  ∃ pipe ∈ P.pipes, pipe.connected = true ∧ pipe.closed = false ∧ client ∈ pipe.clients ∨
    pipe.connected = false ∧ ∃ t ∈ pipe.tries, t.1 = client ∧ P.Tried t

instance (P : Pool) (client : BrokerClient) : Decidable (P.Held client) :=
  inferInstanceAs (Decidable (∃ pipe ∈ P.pipes, _))

def FindsIdle (P : Pool) (client : BrokerClient) : Sweep → Prop
  | .loop now | .manual now => client ∉ P.protectedClients ∧ (P.session client).IsIdle now
  | .shutdown => False

instance (P : Pool) (client : BrokerClient) (sweep : Sweep) : Decidable (P.FindsIdle client sweep) :=
  match sweep with
  | .loop _ | .manual _ => inferInstanceAs (Decidable (_ ∧ _))
  | .shutdown => isFalse id

/-- The await that ends lets a call of `try_client` return the client. -/
def returnsClient (t : Session) : Session.Act → Bool
  | .reply k _ _ | .timeout k _ _ => t.calls[k]? = some (.over .client)
  | _ => false

/-- The idle closer begins to close no client that is held or that is being closed, `try_client`
returns no client that is being closed and the cache gives none, no dispatcher ends of itself, and
the router is not closed. -/
def Sustained (pipelined : Bool) (P : Pool) : PoolAct → Prop
  | .advance j => ∀ x ∈ P.comesTo j, P.FindsIdle x.2 x.1 →
    (P.session x.2).isClosed = false ∧ ¬ P.Held x.2
  | .session client b => ∀ t ∈ (P.session client).step pipelined b,
    ¬ t.EndedItself ∧ (returnsClient t b = true → (P.session client).isClosed = false)
  | .tryClient _ client =>
    (P.session client).dispatcherTask ≠ none → (P.session client).isClosed = false
  | .pipe destPubHex useCache expiry => ∀ entry ∈ P.cache.get? destPubHex, useCache = true →
    P.clock - entry.updated < expiry →
      ∀ client ∈ entry.clients, (P.session client).isClosed = false
  | .close => False
  | _ => True

instance (P : Pool) (a : PoolAct) : Decidable (Sustained pipelined P a) :=
  match a with
  | .advance _ => inferInstanceAs (Decidable (∀ x ∈ _, _))
  | .session .. => inferInstanceAs (Decidable (∀ t ∈ _, _))
  | .tryClient .. => inferInstanceAs (Decidable (_ → _))
  | .pipe .. => inferInstanceAs (Decidable (∀ entry ∈ _, _))
  | .close => isFalse id
  | .tick _ | .ensureClient .. | .connected .. | .send _ | .closePipe _ | .startLoop | .wake
  | .closeIdleClients | .stopped .. | .goesOn .. => isTrue trivial

def Names (P : Pool) (client : BrokerClient) : Prop :=
  (∃ pipe ∈ P.pipes, client ∈ pipe.clients ∨ ∃ t ∈ pipe.tries, t.1 = client) ∨
    ∃ key entry, P.cache.get? key = some entry ∧ client ∈ entry.clients

structure Sustains (P : Pool) : Prop where
  kept : ∀ client, Kept (P.session client)
  idle : ∀ pass ∈ P.passes, pass.sweep.isIdle = true
  names : ∀ client, P.Names client → P.Has client
  held : ∀ client, P.Held client → Serving (P.session client)
  cached : ∀ key entry, P.cache.get? key = some entry → ∀ client ∈ entry.clients,
    (P.session client).isClosed = false → Serving (P.session client)

theorem sweepClient_idle (pipelined : Bool) (P : Pool) (client : BrokerClient)
    (hidle : sweep.isIdle = true) : P.sweepClient sweep client = P.session client ∨ ∃ now,
      (P.session client).step pipelined (.idleClose now) = some (P.sweepClient sweep client) ∧
        ((P.session client).IsIdle now → P.FindsIdle client sweep) := by
  cases sweep with
  | shutdown => cases hidle
  | loop now | manual now =>
    by_cases hprotected : client ∈ P.protectedClients
    · exact Or.inl (if_pos hprotected)
    · refine Or.inr ⟨now, congrArg some ?_, fun h => ⟨hprotected, h⟩⟩
      exact (if_neg hprotected).symm

theorem comesTo_idle (h : ∀ pass ∈ P.passes, pass.sweep.isIdle = true)
    (hcomes : P.comesTo j = some (sweep, client)) : sweep.isIdle = true := by
  unfold comesTo at hcomes
  split at hcomes
  next hpass =>
    obtain ⟨client', -, heq⟩ := Option.map_eq_some_iff.mp hcomes
    cases heq
    exact h _ (List.mem_of_getElem? hpass)
  · cases hcomes

theorem kept_init : Kept {} where
  guarded := guarded_init
  ended := by
    rintro ⟨x, hx, -⟩
    cases hx
  onlyIdle := by
    intro call hcall
    cases hcall

theorem unwatched_ne {b : Act} (h : unwatched s b = true) :
    b ≠ .close ∧ b ≠ .routerClose ∧ ∀ now, b ≠ .idleClose now := by
  refine ⟨?_, ?_, ?_⟩
  · rintro rfl
    cases h
  · rintro rfl
    cases h
  · rintro now rfl
    cases h

theorem Sustained.idle {now : ℚ} (ha : Sustained pipelined P a) (hadv : a = .advance j)
    (hcomes : P.comesTo j = some (sweep, client))
    (hfinds : (P.session client).IsIdle now → P.FindsIdle client sweep)
    (hidle : (P.session client).IsIdle now) :
    (P.session client).isClosed = false ∧ ¬ P.Held client := by
  subst hadv
  exact ha _ hcomes (hfinds hidle)

theorem SessionMove.kept (h : SessionMove pipelined P a client t) (hP : Sustains P)
    (ha : Sustained pipelined P a) : Kept t := by
  have hk := hP.kept client
  cases h with
  | same => exact hk
  | @own b t heq hallowed hstep =>
    obtain ⟨hclose, hrouter, hidle⟩ := unwatched_ne hallowed
    subst heq
    exact hk.step hstep hclose hrouter (fun now hb => absurd hb (hidle now)) (ha t hstep).1
  | tried =>
    have hstep : (P.session client).step pipelined (.tryClient P.clock) =
      some ((P.session client).start ((P.session client).tryClient P.clock)) := rfl
    exact hk.step hstep (by simp) (by simp) (by simp) (not_endedItself hk.ended rfl (Or.inl rfl))
  | sent =>
    have hstep : (P.session client).step pipelined (.queueMsg P.clock) =
      some { P.session client with lastSend := some P.clock } := rfl
    exact hk.step hstep (by simp) (by simp) (by simp) (not_endedItself hk.ended rfl (Or.inl rfl))
  | @swept j sweep hadv hcomes =>
    rcases sweepClient_idle pipelined P client (comesTo_idle hP.idle hcomes) with
      hsame | ⟨now, hstep, hfinds⟩
    · rw [hsame]
      exact hk
    · apply hk.step hstep (by simp) (by simp)
      · rintro _ ⟨⟩ hclosed hidle
        cases hclosed.symm.trans (ha.idle hadv hcomes hfinds hidle).1
      · rw [← Option.some.inj hstep]
        exact idleClose_not_endedItself hk.ended
  | @closes j k _ _ _ r atOnce s _ _ hclosing hs =>
    have hstep : (P.session client).step pipelined (.reply k r atOnce) = some t := hs
    exact hk.step hstep (by simp) (by simp) (by simp)
      ((resumeCall_callStep hs).not_endedItself hclosing hk.ended)
  | made => exact kept_init

theorem SessionMove.serving (h : SessionMove pipelined P a client t) (hP : Sustains P)
    (ha : Sustained pipelined P a) (hhas : P.Has client)
    (hs : Serving (P.session client))
    (hheld : P.Held client ∨ t.isClosed = false) : Serving t := by
  have hk := hP.kept client
  cases h with
  | same => exact hs
  | @own b t heq hallowed hstep =>
    obtain ⟨hclose, hrouter, hidle⟩ := unwatched_ne hallowed
    exact hs.step hk hstep hclose hrouter fun now hb => absurd hb (hidle now)
  | tried => exact hs.congr rfl rfl
  | sent => exact hs.congr rfl rfl
  | @swept j sweep hadv hcomes =>
    rcases sweepClient_idle pipelined P client (comesTo_idle hP.idle hcomes) with
      hsame | ⟨now, hstep, hfinds⟩
    · rw [hsame]
      exact hs
    · apply hs.step hk hstep (by simp) (by simp)
      rintro _ ⟨⟩ hidle
      rcases hheld with hheld | hopen
      · exact (ha.idle hadv hcomes hfinds hidle).2 hheld
      · rw [← Option.some.inj hstep] at hopen
        cases hopen.symm.trans (idleClose_isClosed_of_idle hidle hs.isOpen)
  | closes _ _ _ hstep => exact hs.callStep hk (resumeCall_callStep hstep)
  | made hnot => exact absurd hhas hnot

theorem SessionMove.stays_open (h : SessionMove pipelined P a client t) (hP : Sustains P)
    (ha : Sustained pipelined P a) (hhas : P.Has client) (hopen : t.isClosed = false)
    (hgoes : ∀ j r atOnce, a ≠ .goesOn j r atOnce) (hstopped : ∀ j b, a ≠ .stopped j b) :
    (P.session client).isClosed = false := by
  cases h with
  | same => exact hopen
  | @own b t heq hallowed hstep =>
    have hnot : ∀ {k : ℕ}, (!((P.session client).calls[k]?).any isClosing) = true →
        ¬ (((P.session client).calls[k]?).any isClosing = true) := by
      intro k hk
      simpa using hk
    cases b with
    | reply k r atOnce =>
      rcases (resumeCall_callStep hstep).reopens with hsame | ⟨hclosing, -⟩
      · exact hsame.symm.trans hopen
      · exact absurd hclosing (hnot hallowed)
    | timeout k closedFirst atOnce =>
      rcases (timeout_callStep hstep).reopens with hsame | ⟨hclosing, -⟩
      · exact hsame.symm.trans hopen
      · exact absurd hclosing (hnot hallowed)
    | dispatch d r atOnce =>
      obtain ⟨_, _, _, -, -, rfl⟩ := dispatch_unfinished hstep
      exact hopen
    | lost p =>
      cases hstep
      exact hopen
    | chunk p bytes =>
      obtain ⟨-, rfl⟩ := Session.step_chunk hstep
      exact hopen
    | resume =>
      obtain rfl := Session.step_resume hstep
      exact hopen
    | _ => cases hallowed
  | tried => exact hopen
  | sent => exact hopen
  | @swept j sweep hadv hcomes =>
    rcases sweepClient_idle pipelined P client (comesTo_idle hP.idle hcomes) with
      hsame | ⟨now, hstep, hfinds⟩
    · rw [hsame] at hopen
      exact hopen
    · by_cases hidle : (P.session client).IsIdle now
      · exact (ha.idle hadv hcomes hfinds hidle).1
      · rw [← Option.some.inj hstep] at hopen
        exact (idleClose_isClosed_of_not_idle hidle).symm.trans hopen
  | closes hact =>
    rcases hact with ⟨j, r, atOnce, hact⟩ | ⟨i, b, hact⟩
    · exact absurd hact (hgoes j r atOnce)
    · exact absurd hact (hstopped i b)
  | made hnot => exact absurd hhas hnot

theorem getElem?_start {call : ClientCall} {k : ℕ}
    (h : (s.start call).calls[k]? = some (.over .client)) :
    s.calls[k]? = some (.over .client) ∨ call = .over .client := by
  simp only [Session.start, List.getElem?_append] at h
  split_ifs at h
  · exact Or.inl h
  · exact Or.inr (List.mem_singleton.mp (List.mem_of_getElem? h)).symm

theorem idleClose_returns {now : ℚ} {k : ℕ}
    (h : (s.idleClose now).calls[k]? = some (.over .client)) :
    s.calls[k]? = some (.over .client) := by
  unfold Session.idleClose at h
  split_ifs at h
  · exact h
  · exact h
  · unfold Session.close at h
    split at h
    · rcases getElem?_start h with h | h
      · exact h
      · cases h
    · rcases getElem?_start h with h | h
      · rw [cancelTask_calls] at h
        exact h
      · cases h

theorem SessionMove.returns {k : ℕ} (h : SessionMove pipelined P a client t) (hP : Sustains P)
    (ha : Sustained pipelined P a) (hover : t.calls[k]? = some (.over .client)) :
    (P.session client).calls[k]? = some (.over .client) ∨ Serving t := by
  by_cases hold : (P.session client).calls[k]? = some (.over .client)
  · exact Or.inl hold
  right
  have hreturns : Returns (P.session client) t .client := ⟨k, hover, hold⟩
  cases h with
  | same => exact absurd hover hold
  | @own b t heq hallowed hstep =>
    subst heq
    -- the call that returns is the one whose await has ended
    have hopens : ∀ {i : ℕ} {atOnce : Bool} {r : Reply},
        CallStep pipelined (P.session client) i atOnce r t →
        (!((P.session client).calls[i]?).any isClosing) = true →
        (t.calls[i]? = some (.over .client) → (P.session client).isClosed = false) →
        Serving t := by
      intro i atOnce r hcall hnot hopen
      have hi : k = i := by
        by_contra hne
        exact hold ((hcall.calls_ne hne).symm.trans hover)
      subst hi
      refine ⟨?_, hcall.returned hreturns⟩
      rcases hcall.reopens with hsame | ⟨hclosing, -⟩
      · exact hsame.trans (hopen hover)
      · rw [hclosing] at hnot
        cases hnot
    cases b with
    | reply i r atOnce =>
      apply hopens (resumeCall_callStep hstep) hallowed
      exact fun hi => (ha t hstep).2 (decide_eq_true hi)
    | timeout i closedFirst atOnce =>
      apply hopens (timeout_callStep hstep) hallowed
      exact fun hi => (ha t hstep).2 (decide_eq_true hi)
    | dispatch d r atOnce =>
      obtain ⟨_, _, _, -, -, rfl⟩ := dispatch_unfinished hstep
      exact absurd hover hold
    | lost p =>
      cases hstep
      exact absurd hover hold
    | chunk p bytes =>
      obtain ⟨-, rfl⟩ := Session.step_chunk hstep
      exact absurd hover hold
    | resume =>
      obtain rfl := Session.step_resume hstep
      exact absurd hover hold
    | _ => cases hallowed
  | @tried p heq =>
    subst heq
    rcases getElem?_start hover with h | h
    · exact absurd h hold
    · have htask : (P.session client).dispatcherTask ≠ none := by
        unfold Session.tryClient at h
        split_ifs at h with htask
        · exact htask
        · cases h
      exact ⟨ha htask, htask⟩
  | sent => exact absurd hover hold
  | @swept j sweep hadv hcomes =>
    rcases sweepClient_idle pipelined P client (comesTo_idle hP.idle hcomes) with
      hsame | ⟨now, hstep, -⟩
    · rw [hsame] at hover
      exact absurd hover hold
    · rw [← Option.some.inj hstep] at hover
      exact absurd (idleClose_returns hover) hold
  | @closes j k' _ _ _ r atOnce s _ _ hclosing hs =>
    obtain ⟨call, hcalls, hgoes⟩ := (resumeCall_callStep hs).closing hclosing
    rw [hcalls, List.getElem?_set] at hover
    split_ifs at hover
    · cases hover
      rcases hgoes with h | ⟨res, h, hne, -⟩
      · cases h
      · cases h
        exact absurd rfl hne
    · exact absurd hover hold
  | made => cases hover

theorem Held.names (h : P.Held client) : P.Names client := by
  obtain ⟨pipe, hpipe, ⟨-, -, hclient⟩ | ⟨-, t, ht, heq, -⟩⟩ := h
  · exact Or.inl ⟨pipe, hpipe, Or.inl hclient⟩
  · exact Or.inl ⟨pipe, hpipe, Or.inr ⟨t, ht, heq⟩⟩

theorem Sustains.held_serves (h : Sustains P) (ha : Sustained pipelined P a)
    (hmove : Move pipelined P a Q) (hheld : P.Held client) : Serving (Q.session client) :=
  (hmove.session_move client).serving h ha (h.names client hheld.names) (h.held client hheld)
    (Or.inl hheld)

theorem Sustains.tried_serves (h : Sustains P) (ha : Sustained pipelined P a)
    (hmove : Move pipelined P a Q) {pipe : PipeCall} {t : BrokerClient × ℕ}
    (hpipe : pipe ∈ P.pipes) (hdiscovering : pipe.connected = false) (ht : t ∈ pipe.tries)
    (htried : Q.Tried t) : Serving (Q.session t.1) := by
  rcases (hmove.session_move t.1).returns h ha htried with hold | hserves
  · exact h.held_serves ha hmove ⟨pipe, hpipe, Or.inr ⟨hdiscovering, t, ht, rfl, hold⟩⟩
  · exact hserves

theorem Sustains.held_of_pipes (h : Sustains P) (ha : Sustained pipelined P a)
    (hmove : Move pipelined P a Q) (hpipes : Q.pipes = P.pipes) (hheld : Q.Held client) :
    Serving (Q.session client) := by
  obtain ⟨pipe, hpipe, ⟨hconnected, hopen, hclient⟩ | ⟨hdiscovering, t, ht, rfl, htried⟩⟩ := hheld
  · exact h.held_serves ha hmove ⟨pipe, hpipes ▸ hpipe, Or.inl ⟨hconnected, hopen, hclient⟩⟩
  · exact h.tried_serves ha hmove (hpipes ▸ hpipe) hdiscovering ht htried

theorem Names.of_kept (h : Q.Names client) (hpipes : Q.pipes = P.pipes)
    (hcache : ∀ key entry, Q.cache.get? key = some entry → P.cache.get? key = some entry) :
    P.Names client := by
  rcases h with hpipe | ⟨key, entry, hentry, hclient⟩
  · exact Or.inl (hpipes ▸ hpipe)
  · exact Or.inr ⟨key, entry, hcache key entry hentry, hclient⟩

theorem Sustains.cached_serves (h : Sustains P) (ha : Sustained pipelined P a)
    (hmove : Move pipelined P a Q) {key : String} {entry : CacheEntry}
    (hentry : P.cache.get? key = some entry) (hclient : client ∈ entry.clients)
    (hopen : (Q.session client).isClosed = false)
    (hold : (P.session client).isClosed = false) : Serving (Q.session client) := by
  have hhas := h.names client (Or.inr ⟨key, entry, hentry, hclient⟩)
  exact (hmove.session_move client).serving h ha hhas
    (h.cached key entry hentry client hclient hold) (Or.inr hopen)

theorem Sustains.quiet (h : Sustains P) (ha : Sustained pipelined P a)
    (hmove : Move pipelined P a Q) (hidle : Q.passes.map Pass.sweep = P.passes.map Pass.sweep)
    (hpipes : Q.pipes = P.pipes)
    (hcache : ∀ key entry, Q.cache.get? key = some entry → P.cache.get? key = some entry)
    (hold : ∀ key entry, Q.cache.get? key = some entry → ∀ client ∈ entry.clients,
      (Q.session client).isClosed = false → (P.session client).isClosed = false) :
    Sustains Q where
  kept client := (hmove.session_move client).kept h ha
  idle := by
    intro pass hpass
    have hsweep : pass.sweep ∈ P.passes.map Pass.sweep := hidle ▸ List.mem_map_of_mem hpass
    obtain ⟨pass', hpass', heq⟩ := List.mem_map.mp hsweep
    exact heq ▸ h.idle pass' hpass'
  names client hnames := hmove.wider.has (h.names client (hnames.of_kept hpipes hcache))
  held client hheld := h.held_of_pipes ha hmove hpipes hheld
  cached key entry hentry client hclient hopen :=
    h.cached_serves ha hmove (hcache key entry hentry) hclient hopen
      (hold key entry hentry client hclient hopen)

theorem Sustains.goesOn_open (h : Sustains P) (hgoes : P.goesOn pipelined j r atOnce = some Q)
    {key : String} {entry : CacheEntry} (hentry : Q.cache.get? key = some entry)
    (hclient : client ∈ entry.clients) (hopen : (Q.session client).isClosed = false) :
    (P.session client).isClosed = false := by
  obtain ⟨sweep, c, closing, k, visited, s, hpass, ⟨-, hs⟩, hQ⟩ := goesOn_spec hgoes
  have hsession : Q.session = Function.update P.session closing s := by
    rcases hQ with ⟨-, rfl⟩ | ⟨_, -, rfl⟩ <;> simp [setSession]
  rw [hsession, Function.update_apply] at hopen
  split_ifs at hopen with heq
  · subst heq
    rcases (resumeCall_callStep hs).reopens with hsame | ⟨-, res, hres, hcaught⟩
    · exact hsame.symm.trans hopen
    · rcases hQ with ⟨hnot, -⟩ | ⟨res', hres', hQ⟩
      · exact absurd hres (hnot res)
      · cases hres.symm.trans hres'
        have hidle : sweep.isIdle = true := h.idle _ (List.mem_of_getElem? hpass)
        rcases closeEnded_spec (P.setSession client s) j sweep c client res with
          ⟨-, hended⟩ | ⟨exc, hexc, hun, -⟩
        · rw [hQ, hended, leave, if_pos hidle] at hentry
          exact absurd hclient (get?_evict hentry).2
        · exact absurd ⟨hidle, hcaught exc hexc⟩ hun
  · exact hopen

theorem advance_cache {key : String} {entry : CacheEntry} (hadv : P.advance j = some Q)
    (hentry : Q.cache.get? key = some entry) : P.cache.get? key = some entry := by
  obtain ⟨sweep, c, _, _, -, -, ⟨-, rfl⟩ | ⟨-, ⟨-, rfl⟩ | ⟨host, todo, client, -, -, rfl⟩⟩⟩ :=
    advance_spec hadv
  · exact hentry
  · exact hentry
  · obtain ⟨P', place, heq, rfl | rfl, -⟩ := sweepStep_spec P j sweep
      { c with hosts := ⟨c.hosts.size, todo⟩ } client
    · rw [heq] at hentry
      exact hentry
    · rw [heq] at hentry
      exact (get?_evict hentry).1

theorem goesOn_cache {key : String} {entry : CacheEntry}
    (hgoes : P.goesOn pipelined j r atOnce = some Q) (hentry : Q.cache.get? key = some entry) :
    P.cache.get? key = some entry := by
  rcases goesOn_leaves hgoes with ⟨-, hcache⟩ | ⟨_, _, _, _, -, -, -, -, -, -, -, hcache⟩
  · exact hcache ▸ hentry
  · rw [hcache] at hentry
    exact (get?_evict hentry).1

theorem Sustains.pipe (h : Sustains P) {destPubHex : String} {useCache : Bool} {expiry : ℚ}
    (ha : Sustained pipelined P (.pipe destPubHex useCache expiry)) :
    Sustains (P.pipe destPubHex useCache expiry) := by
  have hfound : ∀ client ∈ ((((P.cache.get? destPubHex).filter fun entry =>
      useCache && decide (P.clock - entry.updated < expiry)).map CacheEntry.clients).getD []),
      ∃ entry, P.cache.get? destPubHex = some entry ∧ client ∈ entry.clients ∧
        (P.session client).isClosed = false := by
    intro client hclient
    cases hentry : (P.cache.get? destPubHex).filter fun entry =>
      useCache && decide (P.clock - entry.updated < expiry) with
    | none =>
      rw [hentry] at hclient
      cases hclient
    | some entry =>
      rw [hentry] at hclient
      obtain ⟨hget, hvalid⟩ := Option.filter_eq_some_iff.mp hentry
      obtain ⟨huse, hage⟩ := Bool.and_eq_true_iff.mp hvalid
      exact ⟨entry, hget, hclient, ha entry hget huse (of_decide_eq_true hage) client hclient⟩
  refine ⟨h.kept, h.idle, ?_, ?_, h.cached⟩
  · rintro client (⟨pipe, hpipe, hnames⟩ | hcached)
    · rcases List.mem_append.mp hpipe with hpipe | hpipe
      · exact h.names client (Or.inl ⟨pipe, hpipe, hnames⟩)
      · obtain rfl := List.mem_singleton.mp hpipe
        rcases hnames with hclient | ⟨t, ht, -⟩
        · obtain ⟨entry, hget, hclient, -⟩ := hfound client hclient
          exact h.names client (Or.inr ⟨destPubHex, entry, hget, hclient⟩)
        · cases ht
    · exact h.names client (Or.inr hcached)
  · rintro client ⟨pipe, hpipe, hheld⟩
    rcases List.mem_append.mp hpipe with hpipe | hpipe
    · exact h.held client ⟨pipe, hpipe, hheld⟩
    · obtain rfl := List.mem_singleton.mp hpipe
      rcases hheld with ⟨-, -, hclient⟩ | ⟨-, t, ht, -⟩
      · obtain ⟨entry, hget, hclient, hopen⟩ := hfound client hclient
        exact h.cached destPubHex entry hget client hclient hopen
      · cases ht

theorem Sustains.tried (h : Sustains P) {p : ℕ} {pipe : PipeCall} {client : BrokerClient}
    (ha : Sustained pipelined P (.tryClient p client))
    (hmove : Move pipelined P (.tryClient p client) Q) (hpipe : P.pipes[p]? = some pipe)
    (hdiscovering : pipe.connected = false) (hhas : P.Has client)
    (hQ : Q.pipes = P.pipes.set p
      { pipe with tries := pipe.tries ++ [(client, (P.session client).calls.length)] })
    (hcache : Q.cache = P.cache) (hpasses : Q.passes = P.passes) : Sustains Q := by
  have hmem := List.mem_of_getElem? hpipe
  refine ⟨fun client => (hmove.session_move client).kept h ha, hpasses ▸ h.idle, ?_, ?_, ?_⟩
  · rintro client' (⟨pipe', hpipe', hnames⟩ | ⟨key, entry, hentry, hclient⟩)
    · rw [hQ] at hpipe'
      rcases mem_set hpipe' with hpipe' | rfl
      · exact hmove.wider.has (h.names client' (Or.inl ⟨pipe', hpipe', hnames⟩))
      · rcases hnames with hclient | ⟨t, ht, rfl⟩
        · exact hmove.wider.has (h.names client' (Or.inl ⟨pipe, hmem, Or.inl hclient⟩))
        · rcases List.mem_append.mp ht with ht | ht
          · exact hmove.wider.has (h.names t.1 (Or.inl ⟨pipe, hmem, Or.inr ⟨t, ht, rfl⟩⟩))
          · obtain rfl := List.mem_singleton.mp ht
            exact hmove.wider.has hhas
    · exact hmove.wider.has (h.names client' (Or.inr ⟨key, entry, hcache ▸ hentry, hclient⟩))
  · rintro client' ⟨pipe', hpipe', hheld⟩
    rw [hQ] at hpipe'
    rcases mem_set hpipe' with hpipe' | rfl
    · rcases hheld with ⟨hconnected, hopen, hclient⟩ | ⟨hnot, t, ht, rfl, htried⟩
      · exact h.held_serves ha hmove ⟨pipe', hpipe', Or.inl ⟨hconnected, hopen, hclient⟩⟩
      · exact h.tried_serves ha hmove hpipe' hnot ht htried
    · rcases hheld with ⟨hconnected, -⟩ | ⟨-, t, ht, rfl, htried⟩
      · cases hconnected.symm.trans hdiscovering
      · rcases List.mem_append.mp ht with ht | ht
        · exact h.tried_serves ha hmove hmem hdiscovering ht htried
        · obtain rfl := List.mem_singleton.mp ht
          rcases (hmove.session_move client).returns h ha htried with hold | hserves
          · simp at hold
          · exact hserves
  · intro key entry hentry client' hclient hopen
    rw [hcache] at hentry
    have hnames : P.Names client' := Or.inr ⟨key, entry, hentry, hclient⟩
    exact h.cached_serves ha hmove hentry hclient hopen
      ((hmove.session_move client').stays_open h ha (h.names client' hnames) hopen (by simp)
        (by simp))

theorem Sustains.connected (h : Sustains P) {p : ℕ} {pipe : PipeCall}
    {clients : List BrokerClient} {cache : PyDict String CacheEntry}
    (hpipe : P.pipes[p]? = some pipe) (hdiscovering : pipe.connected = false)
    (htried : ∀ client ∈ clients, ∃ t ∈ pipe.tries, t.1 = client ∧ P.Tried t)
    (hcache : cache = if pipe.useCache ∧ ¬ pipe.cached then
      P.cache.set pipe.destPubHex ⟨P.clock, clients⟩ else P.cache) :
    Sustains { P with
      pipes := P.pipes.set p { pipe with clients, connected := true }
      cache } := by
  have hmem := List.mem_of_getElem? hpipe
  have hheld : ∀ client ∈ clients, P.Held client := by
    intro client hclient
    obtain ⟨t, ht, heq, htried⟩ := htried client hclient
    exact ⟨pipe, hmem, Or.inr ⟨hdiscovering, t, ht, heq, htried⟩⟩
  have hentry : ∀ {key : String} {entry : CacheEntry}, cache.get? key = some entry →
      P.cache.get? key = some entry ∨ entry.clients = clients := by
    intro key entry hget
    rw [hcache] at hget
    split_ifs at hget
    · rw [PyDict.get?_set] at hget
      split_ifs at hget
      · cases hget
        exact Or.inr rfl
      · exact Or.inl hget
    · exact Or.inl hget
  refine ⟨h.kept, h.idle, ?_, ?_, ?_⟩
  · rintro client (⟨pipe', hpipe', hnames⟩ | ⟨key, entry, hget, hclient⟩)
    · rcases mem_set hpipe' with hpipe' | rfl
      · exact h.names client (Or.inl ⟨pipe', hpipe', hnames⟩)
      · rcases hnames with hclient | ht
        · exact h.names client (hheld client hclient).names
        · exact h.names client (Or.inl ⟨pipe, hmem, Or.inr ht⟩)
    · rcases hentry hget with hold | rfl
      · exact h.names client (Or.inr ⟨key, entry, hold, hclient⟩)
      · exact h.names client (hheld client hclient).names
  · rintro client ⟨pipe', hpipe', hheld'⟩
    rcases mem_set hpipe' with hpipe' | rfl
    · exact h.held client ⟨pipe', hpipe', hheld'⟩
    · rcases hheld' with ⟨-, -, hclient⟩ | ⟨hnot, -⟩
      · exact h.held client (hheld client hclient)
      · cases hnot
  · intro key entry hget client hclient hopen
    rcases hentry hget with hold | rfl
    · exact h.cached key entry hold client hclient hopen
    · exact h.held client (hheld client hclient)

theorem Sustains.closedPipe (h : Sustains P) {p : ℕ} {pipe : PipeCall}
    (hpipe : P.pipes[p]? = some pipe) : Sustains (pipe.clients.foldl evictClientFromCache
      { P with pipes := P.pipes.set p { pipe with closed := true } }) := by
  have hmem := List.mem_of_getElem? hpipe
  have hget : ∀ {key : String} {entry : CacheEntry},
      (pipe.clients.foldl evictClientFromCache
        { P with pipes := P.pipes.set p { pipe with closed := true } }).cache.get? key =
          some entry → P.cache.get? key = some entry := by
    intro key entry hentry
    have hold := get?_foldl_evict pipe.clients hentry
    exact hold
  obtain ⟨cache, heq⟩ := foldl_evict pipe.clients
    { P with pipes := P.pipes.set p { pipe with closed := true } }
  rw [heq] at hget ⊢
  refine ⟨h.kept, h.idle, ?_, ?_, ?_⟩
  · rintro client (⟨pipe', hpipe', hnames⟩ | ⟨key, entry, hentry, hclient⟩)
    · rcases mem_set hpipe' with hpipe' | rfl
      · exact h.names client (Or.inl ⟨pipe', hpipe', hnames⟩)
      · exact h.names client (Or.inl ⟨pipe, hmem, hnames⟩)
    · exact h.names client (Or.inr ⟨key, entry, hget hentry, hclient⟩)
  · rintro client ⟨pipe', hpipe', hheld⟩
    rcases mem_set hpipe' with hpipe' | rfl
    · exact h.held client ⟨pipe', hpipe', hheld⟩
    · rcases hheld with ⟨-, hopen, -⟩ | hdiscovering
      · cases hopen
      · exact h.held client ⟨pipe, hmem, Or.inr hdiscovering⟩
  · intro key entry hentry
    exact h.cached key entry (hget hentry)

theorem Sustains.step (h : Sustains P) (ha : Sustained pipelined P a)
    (hstep : P.step pipelined a = some Q) : Sustains Q := by
  have hmove := step_move hstep
  have hopens : (∀ j r atOnce, a ≠ .goesOn j r atOnce) → (∀ j b, a ≠ .stopped j b) →
      ∀ client, P.Names client → (Q.session client).isClosed = false →
        (P.session client).isClosed = false := by
    intro hgoes hstopped client hnames hopen
    exact (hmove.session_move client).stays_open h ha (h.names client hnames) hopen hgoes hstopped
  have hcached : ∀ {key entry client}, P.cache.get? key = some entry → client ∈ entry.clients →
      P.Names client := fun hentry hclient => Or.inr ⟨_, _, hentry, hclient⟩
  cases hmove with
  | kept => exact h
  | tick | sent | startLoop | made | session =>
    apply h.quiet ha (step_move hstep) rfl rfl (fun _ _ => id)
    intro key entry hentry client hclient
    exact hopens (by simp) (by simp) client (hcached hentry hclient)
  | pipe => exact h.pipe ha
  | tried hpipe hdiscovering hhas =>
    exact h.tried ha (step_move hstep) hpipe hdiscovering hhas rfl rfl rfl
  | connected hpipe hdiscovering htried hcache =>
    exact h.connected hpipe hdiscovering htried hcache
  | closedPipe hpipe => exact h.closedPipe hpipe
  | @began _ loop sweep hstarts =>
    refine ⟨h.kept, ?_, h.names, h.held, h.cached⟩
    intro pass hpass
    have hsweep : pass.sweep ∈ P.passes.map Pass.sweep ++ [sweep] := by
      have hmem := List.mem_map_of_mem (f := Pass.sweep) hpass
      rwa [begin, sweeps_setPlace, List.map_append] at hmem
    rcases List.mem_append.mp hsweep with hold | hnew
    · obtain ⟨pass', hpass', heq⟩ := List.mem_map.mp hold
      exact heq ▸ h.idle pass' hpass'
    · rw [List.mem_singleton.mp hnew]
      cases hstarts with
      | wake => rfl
      | manual => rfl
      | close => exact ha.elim
  | stopping => exact ha.elim
  | stopped hpass =>
    cases h.idle _ (List.mem_of_getElem? hpass)
  | advance hadv =>
    apply h.quiet ha (step_move hstep) (sweeps_advance hadv) (advance_frame hadv).2
    · exact fun _ _ => advance_cache hadv
    · intro key entry hentry client hclient
      exact hopens (by simp) (by simp) client (hcached (advance_cache hadv hentry) hclient)
  | goesOn hgoes =>
    apply h.quiet ha (step_move hstep) (sweeps_goesOn hgoes) (goesOn_frame hgoes).2
    · exact fun _ _ => goesOn_cache hgoes
    · exact fun _ _ hentry _ hclient hopen => h.goesOn_open hgoes hentry hclient hopen

structure Blank (P : Pool) : Prop where
  kept : ∀ client, Kept (P.session client)
  cache : P.cache = ∅
  pipes : P.pipes = []
  passes : P.passes = []

theorem Blank.sustains (h : Blank P) : Sustains P := by
  refine ⟨h.kept, ?_, ?_, ?_, ?_⟩
  · intro pass hpass
    rw [h.passes] at hpass
    cases hpass
  · rintro client (⟨pipe, hpipe, -⟩ | ⟨key, entry, hentry, -⟩)
    · rw [h.pipes] at hpipe
      cases hpipe
    · rw [h.cache] at hentry
      cases hentry
  · rintro client ⟨pipe, hpipe, -⟩
    rw [h.pipes] at hpipe
    cases hpipe
  · intro key entry hentry
    rw [h.cache] at hentry
    cases hentry

def StartsConnect (s t : Session) : Prop :=
  ∃ call ∈ t.calls.drop s.calls.length, (∃ now, call = .entering now) ∨
    ∃ tried m timedOut, call = .connect tried m timedOut

theorem send_spec {p : ℕ} {pipe : PipeCall} (h : P.send p = some Q)
    (hpipe : P.pipes[p]? = some pipe) : pipe.connected = true ∧
      ∀ client ∈ pipe.clients, Q.session client = { P.session client with
        lastSend := some P.clock } := by
  simp only [Pool.send, hpipe] at h
  split_ifs at h with hconnected
  cases h
  exact ⟨hconnected, fun client hclient => if_pos hclient⟩

theorem send_of_step {p : ℕ} (h : P.step pipelined (.send p) = some Q) : P.send p = some Q := by
  unfold Pool.step at h
  split at h
  · exact h
  · simp at h

/-- Sending on a pipe that is not closed finds every client of it with a running dispatcher, in
every run in which the idle closer closes no client that is held. -/
theorem send_served {p : ℕ} {pipe : PipeCall} (hblank : Blank P₀)
    (hrun : Machine.run (step pipelined) P₀ as = some P)
    (hsustained : Machine.Meets (step pipelined) (Sustained pipelined) P₀ as)
    (hsend : P.step pipelined (.send p) = some Q) (hpipe : P.pipes[p]? = some pipe)
    (hopen : pipe.closed = false) : ∀ client ∈ pipe.clients,
      (Q.session client).Running ∨ StartsConnect (P.session client) (Q.session client) := by
  have hP : Sustains P :=
    Machine.run_invariant (fun _ _ _ h ha hs => h.step ha hs) hblank.sustains hsustained hrun
  have hsends : Sustained pipelined P (.send p) := trivial
  have hQ : Sustains Q := hP.step hsends hsend
  obtain ⟨hconnected, hsession⟩ := send_spec (send_of_step hsend) hpipe
  intro client hclient
  left
  have hserves : Serving (P.session client) :=
    hP.held client ⟨pipe, List.mem_of_getElem? hpipe, Or.inl ⟨hconnected, hopen, hclient⟩⟩
  have hkept : Serving (Q.session client) :=
    hserves.congr (by rw [hsession client hclient]) (by rw [hsession client hclient])
  exact hkept.running (hQ.kept client)

theorem kept_connectedSession : Kept connectedSession where
  guarded := by
    refine ⟨?_, ?_, ?_, ?_, ?_⟩
    · decide
    · decide
    · intro call hcall
      cases hcall
    · intro call hcall
      cases hcall
    · intro i j c c' hi
      cases i <;> cases hi
  ended := by decide
  onlyIdle := by
    intro call hcall
    cases hcall

theorem blank_pooled (hosts : List String) : Blank (pooled hosts) :=
  ⟨fun _ => kept_connectedSession, rfl, rfl, rfl⟩

def discovered : List PoolAct :=
  [.pipe "d" true 3600, .tryClient 0 ⟨2, "a", 1883⟩, .tryClient 0 ⟨2, "b", 1883⟩,
    .connected 0 [⟨2, "a", 1883⟩, ⟨2, "b", 1883⟩]]

theorem send_served_discovered : ∃ P Q, ∃ pipe : PipeCall,
    Machine.run (step true) (pooled ["a", "b"]) discovered = some P ∧
      P.step true (.send 0) = some Q ∧ P.pipes[0]? = some pipe ∧
      pipe.clients = [⟨2, "a", 1883⟩, ⟨2, "b", 1883⟩] ∧ ∀ client ∈ pipe.clients,
        (Q.session client).Running ∨ StartsConnect (P.session client) (Q.session client) := by
  obtain ⟨P, hrun, hsustained, hp⟩ := Machine.exists_runMeeting_of_any (step true)
    (Sustained true) (pooled ["a", "b"]) discovered
    (fun P => (P.step true (.send 0)).isSome && (P.pipes[0]?).any fun pipe =>
      pipe.clients = [⟨2, "a", 1883⟩, ⟨2, "b", 1883⟩] ∧ pipe.closed = false) (by decide +kernel)
  obtain ⟨hsend, hpipe⟩ := Bool.and_eq_true_iff.mp hp
  obtain ⟨Q, hQ⟩ := Option.isSome_iff_exists.mp hsend
  obtain ⟨pipe, hget, hpipe⟩ := (Option.any_eq_true _ _).mp hpipe
  obtain ⟨hclients, hopen⟩ := of_decide_eq_true hpipe
  exact ⟨P, Q, pipe, hrun, hQ, hget, hclients,
    send_served (blank_pooled ["a", "b"]) hrun hsustained hQ hget hopen⟩

def closedWhileHeld : List PoolAct :=
  discovered ++ [.closeIdleClients, .advance 0] ++ closesClient ⟨2, "a", 1883⟩ ++ [.advance 0] ++
    closesClient ⟨2, "b", 1883⟩ ++ [.advance 0, .advance 0]

theorem not_send_served : ¬ ∀ (pipelined : Bool) (P₀ P Q : Pool) (as : List PoolAct) (p : ℕ)
    (pipe : PipeCall), Blank P₀ → Machine.run (step pipelined) P₀ as = some P →
      (∀ a ∈ as, a ≠ .close) → P.step pipelined (.send p) = some Q → P.pipes[p]? = some pipe →
      pipe.closed = false → ∀ client ∈ pipe.clients,
        (Q.session client).Running ∨ StartsConnect (P.session client) (Q.session client) := by
  intro hserved
  obtain ⟨P, hrun, hp⟩ := Machine.exists_run_of_any (step true) (pooled ["a", "b"]) closedWhileHeld
    (fun P => decide ((P.session ⟨2, "a", 1883⟩).dispatcherTask = none) &&
      ((P.step true (.send 0)).isSome && (P.pipes[0]?).any fun pipe =>
        ⟨2, "a", 1883⟩ ∈ pipe.clients ∧ pipe.closed = false)) (by decide +kernel)
  obtain ⟨htask, hp⟩ := Bool.and_eq_true_iff.mp hp
  obtain ⟨hsend, hpipe⟩ := Bool.and_eq_true_iff.mp hp
  obtain ⟨Q, hQ⟩ := Option.isSome_iff_exists.mp hsend
  obtain ⟨pipe, hget, hpipe⟩ := (Option.any_eq_true _ _).mp hpipe
  obtain ⟨hmem, hopen⟩ := of_decide_eq_true hpipe
  have hsession := (send_spec (send_of_step hQ) hget).2 _ hmem
  rcases hserved true (pooled ["a", "b"]) P Q closedWhileHeld 0 pipe (blank_pooled ["a", "b"]) hrun
    (by decide) hQ hget hopen _ hmem with ⟨⟨x, hx, -⟩, -⟩ | ⟨call, hcall, -⟩
  · rw [hsession, Session.task, of_decide_eq_true htask] at hx
    cases hx
  · rw [hsession, List.drop_length] at hcall
    cases hcall

end Pool

end Sidewire
