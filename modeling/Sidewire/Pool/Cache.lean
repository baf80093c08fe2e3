import Sidewire.Lib.Machine
import Sidewire.Pool.Steps

/-! # The discovery cache

The idle closer evicts a client from the cache when it has closed it. A
discovery may have got the client before and write it into the cache
afterwards. If no close ends while such a discovery is under way, the cache
names no client that the idle closer has closed and that has not been connected
since.
-/

namespace Sidewire

def PipeCall.caches (pipe : PipeCall) : Bool := !pipe.connected && pipe.useCache && !pipe.cached

def CallResult.raises : CallResult → Option AwaitExc
  | .failed exc => some exc
  | _ => none

namespace Pool

open Session

variable {pipelined atOnce : Bool} {P₀ P Q : Pool} {a : PoolAct} {as : List PoolAct}
  {client : BrokerClient} {j : ℕ} {r : Reply} {s t : Session}

/-- The client with which the idle closer is through by the end of the await, and the number of
the call of `close`. -/
def leaves (pipelined : Bool) (P : Pool) (j : ℕ) (r : Reply) (atOnce : Bool) :
    Option (BrokerClient × ℕ) :=
  match P.passes[j]? with
  | some ⟨sweep, .closing _ client k, _⟩ =>
    match (P.session client).resumeCall pipelined k r atOnce with
    | some s =>
      match s.calls[k]? with
      | some (.over r) =>
        if sweep.isIdle = true ∧ ∀ exc ∈ r.raises, ¬ Uncaught sweep exc then some (client, k)
        else none
      | _ => none
    | none => none
  | _ => none

/-- When the idle closer is through with a client, nobody has connected it since the dispatcher
ended, and it has been returned to no discovery that will be cached. -/
def Settled (pipelined : Bool) (P : Pool) : PoolAct → Prop
  | .goesOn j r atOnce => ∀ x ∈ P.leaves pipelined j r atOnce,
    (((P.session x.1).calls[x.2]?).any afterCancel = true →
      (P.session x.1).dispatcherTask = none) ∧
    ∀ pipe ∈ P.pipes, pipe.caches = true → ∀ t ∈ pipe.tries, t.1 = x.1 → ¬ P.Tried t
  | _ => True

instance (P : Pool) (a : PoolAct) : Decidable (Settled pipelined P a) :=
  match a with
  | .goesOn .. => inferInstanceAs (Decidable (∀ x ∈ _, _))
  | .tick _ | .ensureClient .. | .session .. | .pipe .. | .tryClient .. | .connected .. | .send _
  | .closePipe _ | .startLoop | .wake | .closeIdleClients | .close | .stopped .. | .advance _ =>
    isTrue trivial

def CacheFresh (P : Pool) : Prop :=
  ∀ pubKeyHex entry, P.cache.get? pubKeyHex = some entry →
    ∀ client ∈ entry.clients, P.left client = false

structure Fresh (P : Pool) : Prop where
  left : ∀ client, P.left client = true → (P.session client).dispatcherTask = none
  tries : ∀ pipe ∈ P.pipes, pipe.caches = true → ∀ t ∈ pipe.tries, P.Tried t →
    P.left t.1 = false
  cache : P.CacheFresh

theorem connects_of_connects {k : ℕ} {b : Act} (h : Connects s t k)
    (hb : (∃ r atOnce, b = .reply k r atOnce) ∨ ∃ closedFirst atOnce, b = .timeout k closedFirst
      atOnce) : connects s t b = true := by
  obtain ⟨⟨tried, m, timedOut, hs⟩, ht | ⟨p, ht⟩⟩ := h
  · rcases hb with ⟨r, atOnce, rfl⟩ | ⟨closedFirst, atOnce, rfl⟩ <;> simp [connects, hs, ht]
  · rcases hb with ⟨r, atOnce, rfl⟩ | ⟨closedFirst, atOnce, rfl⟩ <;> simp [connects, hs, ht]

theorem SessionMove.quiet (h : SessionMove pipelined P a client t) :
    (∃ b, a = .session client b ∧ connects (P.session client) t b = true) ∨
      Quiet (P.session client) t := by
  cases h with
  | same => exact Or.inr (.refl _)
  | @own b _ ha _ hstep =>
    rcases quiet_step hstep with ⟨k, hconnects, hb⟩ | hquiet
    · exact Or.inl ⟨b, ha, connects_of_connects hconnects hb⟩
    · exact Or.inr hquiet
  | tried ha =>
    have hstep : (P.session client).step pipelined (.tryClient P.clock) =
      some ((P.session client).start ((P.session client).tryClient P.clock)) := rfl
    rcases quiet_step hstep with ⟨k, -, ⟨_, _, h⟩ | ⟨_, _, h⟩⟩ | hquiet
    · cases h
    · cases h
    · exact Or.inr hquiet
  | sent => exact Or.inr (.of_eq rfl rfl)
  | @swept _ sweep _ _ =>
    rcases sweepClient_step pipelined P sweep client with hsame | ⟨b, hb, hstep⟩
    · rw [hsame]
      exact Or.inr (.refl _)
    · rcases quiet_step hstep with ⟨k, -, ⟨_, _, h⟩ | ⟨_, _, h⟩⟩ | hquiet
      · rcases hb with ⟨now, rfl⟩ | rfl <;> cases h
      · rcases hb with ⟨now, rfl⟩ | rfl <;> cases h
      · exact Or.inr hquiet
  | closes _ _ hclosing hs =>
    rcases (resumeCall_callStep hs).quiet with ⟨⟨_, _, _, hconnect⟩, -⟩ | hquiet
    · rw [hconnect] at hclosing
      cases hclosing
    · exact Or.inr hquiet
  | made =>
    refine Or.inr ⟨fun _ => rfl, ?_⟩
    intro k hk
    cases hk

theorem get?_evict {key : String} {entry : CacheEntry}
    (h : (P.evictClientFromCache client).cache.get? key = some entry) :
    P.cache.get? key = some entry ∧ client ∉ entry.clients := by
  simp only [evictClientFromCache, PyDict.get?_filter, Option.filter_eq_some_iff,
    decide_eq_true_eq] at h
  exact h

theorem get?_foldl_evict {key : String} {entry : CacheEntry} (clients : List BrokerClient) :
    ∀ {P : Pool}, (clients.foldl evictClientFromCache P).cache.get? key = some entry →
      P.cache.get? key = some entry := by
  induction clients with
  | nil => exact id
  | cons client clients ih => exact fun h => (get?_evict (ih h)).1

theorem goesOn_leaves (h : P.goesOn pipelined j r atOnce = some Q) :
    Q.left = P.left ∧ Q.cache = P.cache ∨ ∃ client k s res,
      P.leaves pipelined j r atOnce = some (client, k) ∧
      ((P.session client).calls[k]?).any isClosing = true ∧
      (P.session client).resumeCall pipelined k r atOnce = some s ∧
      s.calls[k]? = some (.over res) ∧
      (∀ exc, res = .failed exc → exc = .osError ∨ exc = .connectionError) ∧
      Q.session = Function.update P.session client s ∧
      Q.left = Function.update P.left client true ∧
      Q.cache = (P.evictClientFromCache client).cache := by
  obtain ⟨sweep, c, client, k, visited, s, hpass, ⟨hcall, hs⟩, ⟨-, rfl⟩ | ⟨res, hres, hQ⟩⟩ :=
    goesOn_spec h
  · exact Or.inl ⟨rfl, rfl⟩
  · rcases closeEnded_spec (P.setSession client s) j sweep c client res with
      ⟨hcaught, heq⟩ | ⟨exc, -, -, heq⟩
    · by_cases hidle : sweep.isIdle = true
      · right
        have hraises : ∀ exc ∈ res.raises, ¬ Uncaught sweep exc := by
          intro exc hexc
          cases res <;> cases hexc
          exact hcaught exc rfl
        refine ⟨client, k, s, res, ?_, hcall, hs, hres, ?_, ?_, ?_, ?_⟩
        · simp only [leaves, hpass, hs, hres, if_pos (And.intro hidle hraises)]
        · intro exc hexc
          exact (not_not.mp (hcaught exc hexc)).2
        · simp [hQ, setSession]
        · rw [hQ, heq, leave, if_pos hidle]
          rfl
        · rw [hQ, heq, leave, if_pos hidle]
          rfl
      · left
        rw [hQ, heq, leave, if_neg hidle]
        exact ⟨rfl, rfl⟩
    · left
      rw [hQ, heq]
      exact ⟨rfl, rfl⟩

theorem Fresh.quiet (h : Fresh P)
    (hleft : ∀ client, Q.left client = true →
      P.left client = true ∧ Quiet (P.session client) (Q.session client))
    (hpipes : ∀ pipe ∈ Q.pipes, pipe.caches = true → ∀ t ∈ pipe.tries, Q.Tried t →
      P.left t.1 = true → ∃ pipe ∈ P.pipes, pipe.caches = true ∧ t ∈ pipe.tries)
    (hcache : ∀ key entry, Q.cache.get? key = some entry → P.cache.get? key = some entry ∨
      ∀ client ∈ entry.clients, P.left client = false) : Fresh Q where
  left := by
    intro client hclient
    obtain ⟨hold, hquiet⟩ := hleft client hclient
    exact hquiet.task (h.left client hold)
  tries := by
    intro pipe hpipe hcaches t ht htried
    by_contra hnot
    obtain ⟨hold, hquiet⟩ := hleft t.1 (by simpa using hnot)
    obtain ⟨pipe', hpipe', hcaches', ht'⟩ := hpipes pipe hpipe hcaches t ht htried hold
    rcases hquiet.client t.2 htried with htried' | htask
    · cases hold.symm.trans (h.tries pipe' hpipe' hcaches' t ht' htried')
    · exact htask (h.left t.1 hold)
  cache := by
    intro key entry hentry client hclient
    by_contra hnot
    obtain ⟨hold, -⟩ := hleft client (by simpa using hnot)
    rcases hcache key entry hentry with hentry' | hnew
    · cases hold.symm.trans (h.cache key entry hentry' client hclient)
    · cases hold.symm.trans (hnew client hclient)

theorem ends_of_resumeCall {k : ℕ} {u v : Session} {res : CallResult}
    (hclosing : (u.calls[k]?).any isClosing = true)
    (hs : u.resumeCall pipelined k r atOnce = some v) (hres : v.calls[k]? = some (.over res)) :
    (∀ i, v.calls[i]? = if k = i then some (.over res) else u.calls[i]?) ∧ res ≠ .client ∧
      EndsClose u v k r res := by
  obtain ⟨call, hcalls, hgoes⟩ := (resumeCall_callStep hs).closing hclosing
  have hlt : k < u.calls.length := by
    obtain ⟨c, hc, -⟩ := (Option.any_eq_true _ _).mp hclosing
    exact (List.getElem?_eq_some_iff.mp hc).1
  rw [hcalls, List.getElem?_set_self hlt] at hres
  cases hres
  obtain ⟨res', hres', hnot, hends⟩ := hgoes.resolve_left (by simp [isClosing])
  cases hres'
  refine ⟨fun i => ?_, hnot, hends⟩
  rw [hcalls, List.getElem?_set, if_pos hlt]

theorem Fresh.leaves {k : ℕ} {res : CallResult} (h : Fresh P)
    (hclosing : ((P.session client).calls[k]?).any isClosing = true)
    (hs : (P.session client).resumeCall pipelined k r atOnce = some s)
    (hres : s.calls[k]? = some (.over res))
    (hcaught : ∀ exc, res = .failed exc → exc = .osError ∨ exc = .connectionError)
    (hafter : ((P.session client).calls[k]?).any afterCancel = true →
      (P.session client).dispatcherTask = none)
    (htries : ∀ pipe ∈ P.pipes, pipe.caches = true → ∀ t ∈ pipe.tries, t.1 = client →
      ¬ P.Tried t)
    (hsession : Q.session = Function.update P.session client s)
    (hleft : Q.left = Function.update P.left client true)
    (hcache : Q.cache = (P.evictClientFromCache client).cache) (hpipes : Q.pipes = P.pipes) :
    Fresh Q := by
  obtain ⟨hcalls, hnot, hends⟩ := ends_of_resumeCall hclosing hs hres
  refine ⟨?_, ?_, ?_⟩
  · intro client' hclient'
    rw [hsession, Function.update_apply]
    rw [hleft, Function.update_apply] at hclient'
    split_ifs with heq
    · apply (hends hcaught).2
      intro c hc hc'
      exact hafter (by rw [hc]; exact hc')
    · rw [if_neg heq] at hclient'
      exact h.left client' hclient'
  · rw [hpipes]
    rintro pipe hpipe hcaches ⟨client', i⟩ ht htried
    rw [hleft, Function.update_apply]
    rw [Tried, hsession, Function.update_apply] at htried
    split_ifs with heq
    · subst heq
      apply absurd _ (htries pipe hpipe hcaches _ ht rfl)
      rw [if_pos rfl, hcalls] at htried
      split_ifs at htried with hi
      · cases htried
        exact absurd rfl hnot
      · exact htried
    · rw [if_neg heq] at htried
      exact h.tries pipe hpipe hcaches _ ht htried
  · intro key entry hentry client' hclient'
    rw [hcache] at hentry
    obtain ⟨hentry, hclient⟩ := get?_evict hentry
    rw [hleft, Function.update_apply, if_neg]
    · exact h.cache key entry hentry client' hclient'
    · rintro rfl
      exact hclient hclient'

theorem mem_set {pipes : List PipeCall} {p : ℕ} {pipe pipe' : PipeCall}
    (h : pipe ∈ pipes.set p pipe') : pipe ∈ pipes ∨ pipe = pipe' := List.mem_or_eq_of_mem_set h

theorem Fresh.kept (h : Fresh P) (hleft : Q.left = P.left) (hcache : Q.cache = P.cache)
    (hpipes : Q.pipes = P.pipes)
    (hquiet : ∀ client, Quiet (P.session client) (Q.session client)) : Fresh Q := by
  apply h.quiet
  · intro client hclient
    exact ⟨hleft ▸ hclient, hquiet client⟩
  · rw [hpipes]
    exact fun pipe hpipe hcaches t ht _ _ => ⟨pipe, hpipe, hcaches, ht⟩
  · rw [hcache]
    exact fun _ _ hentry => Or.inl hentry

theorem Fresh.goesOn (h : Fresh P) (hstep : P.goesOn pipelined j r atOnce = some Q)
    (hsettled : Settled pipelined P (.goesOn j r atOnce)) : Fresh Q := by
  rcases goesOn_leaves hstep with ⟨hleft, hcache⟩ |
    ⟨client, k, s, res, hleaves, hclosing, hs, hres, hcaught, hsession, hleft, hcache⟩
  · apply h.kept hleft hcache (goesOn_frame hstep).2
    intro client
    rcases (goesOn_session (a := .goesOn j r atOnce) hstep (Or.inl ⟨_, _, _, rfl⟩) client).quiet with
      ⟨b, hb, -⟩ | hquiet
    · cases hb
    · exact hquiet
  · obtain ⟨hafter, htries⟩ := hsettled _ hleaves
    exact h.leaves hclosing hs hres hcaught hafter htries hsession hleft hcache
      (goesOn_frame hstep).2

theorem goesOn_cancelled {closedFirst : Bool}
    (h : P.goesOn pipelined j (.raised .cancelledError closedFirst) atOnce = some Q) :
    Q.left = P.left ∧ Q.cache = P.cache := by
  rcases goesOn_leaves h with hkept |
    ⟨client, k, s, res, -, hclosing, hs, hres, hcaught, -⟩
  · exact hkept
  · obtain ⟨-, -, hends⟩ := ends_of_resumeCall hclosing hs hres
    exact absurd rfl ((hends hcaught).1 closedFirst)

theorem Fresh.advance (h : Fresh P) (hstep : P.advance j = some Q) : Fresh Q := by
  have hmove : Move true P (.advance j) Q := .advance hstep
  have hcache : Q.left = P.left ∧ ∀ key entry, Q.cache.get? key = some entry →
      P.cache.get? key = some entry := by
    obtain ⟨sweep, c, _, _, -, -, ⟨-, rfl⟩ | ⟨-, ⟨-, rfl⟩ | ⟨host, todo, client, -, -, rfl⟩⟩⟩ :=
      advance_spec hstep
    · exact ⟨rfl, fun _ _ => id⟩
    · exact ⟨rfl, fun _ _ => id⟩
    · obtain ⟨P', place, heq, rfl | rfl, -⟩ := sweepStep_spec P j sweep
        { c with hosts := ⟨c.hosts.size, todo⟩ } client
      · rw [heq]
        exact ⟨rfl, fun _ _ => id⟩
      · rw [heq]
        exact ⟨rfl, fun _ _ hentry => (get?_evict hentry).1⟩
  apply h.quiet
  · intro client hclient
    refine ⟨hcache.1 ▸ hclient, ?_⟩
    rcases (hmove.session_move client).quiet with ⟨b, hb, -⟩ | hquiet
    · cases hb
    · exact hquiet
  · rw [(advance_frame hstep).2]
    exact fun pipe hpipe hcaches t ht _ _ => ⟨pipe, hpipe, hcaches, ht⟩
  · exact fun key entry hentry => Or.inl (hcache.2 key entry hentry)

theorem Fresh.step (h : Fresh P) (hsettled : Settled pipelined P a)
    (hstep : P.step pipelined a = some Q) : Fresh Q := by
  have hmove := step_move hstep
  have hquiet : (∀ client b, a ≠ .session client b) → ∀ client,
      Quiet (P.session client) (Q.session client) := by
    intro ha client
    rcases (hmove.session_move client).quiet with ⟨b, hb, -⟩ | hquiet
    · exact absurd hb (ha client b)
    · exact hquiet
  cases hmove with
  | kept => exact h
  | tick | sent | startLoop | stopping | made => exact h.kept rfl rfl rfl (hquiet (by simp))
  | began => exact h.kept rfl rfl rfl fun client => .refl _
  | @session client b t hhas _ hs =>
    apply h.quiet
    · intro client' hclient'
      have hmove := (step_move hstep).session_move client'
      dsimp only at hclient'
      split_ifs at hclient' with hconnects
      · rw [Function.update_apply] at hclient'
        split_ifs at hclient' with heq
        refine ⟨hclient', ?_⟩
        rcases hmove.quiet with ⟨b', hb', -⟩ | hquiet
        · cases hb'
          exact absurd rfl heq
        · exact hquiet
      · refine ⟨hclient', ?_⟩
        rcases hmove.quiet with ⟨b', hb', hconnects'⟩ | hquiet
        · cases hb'
          simp only [setSession, Function.update_self] at hconnects'
          exact absurd hconnects' hconnects
        · exact hquiet
    · exact fun pipe hpipe hcaches t ht _ _ => ⟨pipe, hpipe, hcaches, ht⟩
    · exact fun _ _ hentry => Or.inl hentry
  | pipe =>
    apply h.quiet
    · exact fun client hclient => ⟨hclient, .refl _⟩
    · intro pipe hpipe hcaches t ht _ _
      rcases List.mem_append.mp hpipe with hpipe | hpipe
      · exact ⟨pipe, hpipe, hcaches, ht⟩
      · obtain rfl := List.mem_singleton.mp hpipe
        cases ht
    · exact fun _ _ hentry => Or.inl hentry
  | @tried p pipe client hpipe hdiscovering hhas =>
    apply h.quiet
    · exact fun client hclient => ⟨hclient, hquiet (by simp) client⟩
    · intro pipe' hpipe' hcaches t ht htried hleft
      rcases mem_set hpipe' with hpipe' | rfl
      · exact ⟨pipe', hpipe', hcaches, ht⟩
      · rcases List.mem_append.mp ht with ht | ht
        · exact ⟨pipe, List.mem_of_getElem? hpipe, hcaches, ht⟩
        · -- `try_client` returns a client at once only if it has a dispatcher
          obtain rfl := List.mem_singleton.mp ht
          rcases (hquiet (by simp) client).client _ htried with hold | htask
          · simp at hold
          · exact absurd (h.left client hleft) htask
    · exact fun _ _ hentry => Or.inl hentry
  | @connected p pipe clients cache hpipe hdiscovering htried hcache =>
    apply h.quiet
    · exact fun client hclient => ⟨hclient, .refl _⟩
    · intro pipe' hpipe' hcaches t ht _ _
      rcases mem_set hpipe' with hpipe' | rfl
      · exact ⟨pipe', hpipe', hcaches, ht⟩
      · simp [PipeCall.caches] at hcaches
    · intro key entry hentry
      dsimp only at hentry
      rw [hcache] at hentry
      split_ifs at hentry with hwrites
      · rw [PyDict.get?_set] at hentry
        split_ifs at hentry with hkey
        · cases hentry
          right
          intro client hclient
          obtain ⟨t, ht, rfl, htried⟩ := htried client hclient
          refine h.tries pipe (List.mem_of_getElem? hpipe) ?_ t ht htried
          simp [PipeCall.caches, hdiscovering, hwrites.1, hwrites.2]
        · exact Or.inl hentry
      · exact Or.inl hentry
  | @closedPipe p pipe hpipe hconnected =>
    obtain ⟨cache, heq⟩ := foldl_evict pipe.clients
      { P with pipes := P.pipes.set p { pipe with closed := true } }
    apply h.quiet
    · rw [heq]
      exact fun client hclient => ⟨hclient, .refl _⟩
    · rw [heq]
      intro pipe' hpipe' hcaches t ht _ _
      rcases mem_set hpipe' with hpipe' | rfl
      · exact ⟨pipe', hpipe', hcaches, ht⟩
      · simp [PipeCall.caches, hconnected] at hcaches
    · intro key entry hentry
      have hold := get?_foldl_evict pipe.clients hentry
      exact Or.inl hold
  | stopped hpass hP' =>
    rcases hP' with ⟨rfl, -⟩ | ⟨i, -, hgoes⟩
    · exact h.kept rfl rfl rfl fun client => .refl _
    · obtain ⟨hleft, hcache⟩ := goesOn_cancelled hgoes
      exact h.kept hleft hcache (goesOn_frame hgoes).2 (hquiet (by simp))
  | advance hadv => exact h.advance hadv
  | goesOn hgoes => exact h.goesOn hgoes hsettled

/-- The cache names no client that the idle closer has closed and that has not been connected
since, in every run in which it closes no client that a discovery is about to cache. -/
theorem cache_fresh (hleft : ∀ client, P₀.left client = false)
    (hrun : Machine.run (step pipelined) P₀ as = some P)
    (hsettled : Machine.Meets (step pipelined) (Settled pipelined) P₀ as) : P.CacheFresh := by
  have hfresh : Fresh P₀ := by
    refine ⟨?_, fun _ _ _ t _ _ => hleft t.1, fun _ _ _ client _ => hleft client⟩
    intro client hclient
    cases (hleft client).symm.trans hclient
  exact (Machine.run_invariant (fun _ _ _ h hp hs => h.step hp hs) hfresh hsettled hrun).cache

def discoveredAndClosed : List PoolAct :=
  [.pipe "d" true 3600, .tryClient 0 ⟨2, "a", 1883⟩, .tryClient 0 ⟨2, "b", 1883⟩,
    .connected 0 [⟨2, "a", 1883⟩, ⟨2, "b", 1883⟩], .closeIdleClients, .advance 0] ++
    closesClient ⟨2, "a", 1883⟩

theorem cache_fresh_closed : ∃ P, Machine.run (step true) (pooled ["a", "b"])
    discoveredAndClosed = some P ∧ P.left ⟨2, "a", 1883⟩ = true ∧ P.CacheFresh := by
  obtain ⟨P, hrun, hsettled, hp⟩ := Machine.exists_runMeeting_of_any (step true) (Settled true)
    (pooled ["a", "b"]) discoveredAndClosed (fun P => P.left ⟨2, "a", 1883⟩) (by decide +kernel)
  exact ⟨P, hrun, hp, cache_fresh (fun _ => rfl) hrun hsettled⟩

def closedWhileDiscovered : List PoolAct :=
  [.pipe "d" true 3600, .tryClient 0 ⟨2, "a", 1883⟩, .tryClient 0 ⟨2, "b", 1883⟩,
    .closeIdleClients, .advance 0] ++ closesClient ⟨2, "a", 1883⟩ ++ [.advance 0] ++
    closesClient ⟨2, "b", 1883⟩ ++
    [.advance 0, .advance 0, .connected 0 [⟨2, "a", 1883⟩, ⟨2, "b", 1883⟩]]

theorem not_cache_fresh : ¬ ∀ (pipelined : Bool) (P₀ P : Pool) (as : List PoolAct),
    (∀ client, P₀.left client = false) → Machine.run (step pipelined) P₀ as = some P →
    P.CacheFresh := by
  intro hfreshAll
  obtain ⟨P, hrun, hp⟩ := Machine.exists_run_of_any (step true) (pooled ["a", "b"])
    closedWhileDiscovered (fun P => P.left ⟨2, "a", 1883⟩ &&
      decide (P.cache.get? "d" = some ⟨700, [⟨2, "a", 1883⟩, ⟨2, "b", 1883⟩]⟩))
      (by decide +kernel)
  obtain ⟨hleft, hentry⟩ := Bool.and_eq_true_iff.mp hp
  have hfresh := hfreshAll true (pooled ["a", "b"]) P closedWhileDiscovered (fun _ => rfl) hrun
  have hnot := hfresh "d" _ (of_decide_eq_true hentry) ⟨2, "a", 1883⟩ (by simp)
  cases hleft.symm.trans hnot

end Pool

end Sidewire
