import Sidewire.Mqtt.Handlers
import Sidewire.Router.Objects
import Sidewire.Router.Steps

/-! # Managed clients are alike

Whichever order clients and handlers come in, every client of the router has all
the handlers registered on it and refers to its one table of received ids. So the
event loop of the router, which has one table, is what its clients run.
-/

namespace Sidewire

theorem HandlerSet.mem_add {s : HandlerSet} {h x : ℕ} :
    x ∈ (s.add h).toList ↔ x ∈ s.toList ∨ x = h := by
  unfold HandlerSet.add
  split_ifs with hm
  · constructor
    · exact Or.inl
    · rintro (hx | rfl)
      · exact hx
      · exact hm
  · simp

namespace Router

open Exec MQTTClient

variable {KP ι : Type} [DecidableEq ι] {A : Aio KP} {r r' : Router KP ι} {res : Except PyExc ℕ}
  {t : Task ι} {i : ι} {a : Action ι} {pc : TaskPc} {c d : MQTTClient KP}
  {recv : PyDict String ℚ} {calls : List (ℕ × AppPacket)}

def HandlersKept (f g : ι → MQTTClient KP) : Prop :=
  ∀ j, (f j).msgHandlers.toList ⊆ (g j).msgHandlers.toList

omit [DecidableEq ι] in
theorem HandlersKept.refl (f : ι → MQTTClient KP) : HandlersKept f f := fun _ => List.Subset.refl _

theorem HandlersKept.update {f : ι → MQTTClient KP}
    (h : (f i).msgHandlers.toList ⊆ c.msgHandlers.toList) :
    HandlersKept f (Function.update f i c) := by
  intro j
  by_cases hj : j = i
  · subst hj
    rw [Function.update_self]
    exact h
  · rw [Function.update_of_ne hj]
    exact List.Subset.refl _

theorem HandlersKept.update_of_eq {f : ι → MQTTClient KP} (h : c.msgHandlers = (f i).msgHandlers) :
    HandlersKept f (Function.update f i c) :=
  .update (by rw [h]; exact List.Subset.refl _)

theorem msgHandlers_of_others (h : Writes A (fun w => ∀ x, w ≠ .addHandler x) c d) :
    d.msgHandlers = c.msgHandlers :=
  h.msgHandlers fun x hx => hx x rfl

omit [DecidableEq ι] in
theorem Turn.msgHandlers (h : Turn A r t res pc c recv calls) :
    c.msgHandlers = (r.clients t.client).msgHandlers := by
  have hstarts : ∀ {now pkt pc d}, AckStarts A now pkt (r.clients t.client) pc d →
      d.msgHandlers = (r.clients t.client).msgHandlers := by
    rintro now pkt pc d (⟨hw, -, -⟩ | ⟨hw, -, -⟩)
    · exact (hw fun _ => False).msgHandlers fun _ h => h
    · exact (hw fun _ => False).msgHandlers fun _ h => h
  cases h with
  | topic | drop | first | next | changed | sent | failed => rfl
  | again =>
    apply msgHandlers_of_others (A := A)
    exact writes_processAppMsgBegin fun _ _ _ => by simp
  | fresh =>
    apply msgHandlers_of_others (A := A)
    exact writes_dropOldAcks fun _ _ _ => by simp
  | ack => exact msgHandlers_processAppAck ..
  | probe => exact msgHandlers_processAppProbe ..
  | seen _ _ ha => exact hstarts ha
  | unheard _ _ _ ha => exact hstarts ha
  | last _ ha => exact hstarts ha
  | signed => exact msgHandlers_queueMsgAsyncEnd ..

theorem handlersKept_step (h : r.step A a = some r') : HandlersKept r.clients r'.clients := by
  have h := act_of_step h
  cases a with
  | tick t =>
    simp only [act] at h
    split_ifs at h
    cases h
    exact .refl _
  | recv i topic payload withId =>
    cases h
    exact .refl _
  | resume k res =>
    obtain ⟨t, pc, c, recv, calls, -, ht, rfl⟩ := resume_spec h
    exact .update_of_eq ht.msgHandlers
  | queueMsg i rnd msg dest q t seqNo =>
    cases h
    rw [call_eq]
    exact .update_of_eq (msgHandlers_queueMsg ..)
  | dequeueMsg i q seqNo t =>
    cases h
    apply HandlersKept.update_of_eq
    apply msgHandlers_of_others (A := A)
    exact writes_dequeueMsg (fun _ _ => by simp) fun _ _ _ _ _ => by simp
  | sendProbe i rnd dest q =>
    cases h
    rw [call_eq]
    exact .update_of_eq (msgHandlers_sendProbe ..)
  | addMsgHandler i x =>
    cases h
    apply HandlersKept.update
    exact fun y hy => HandlerSet.mem_add.mpr (Or.inl hy)
  | dispatch i draw =>
    cases dispatch_spec h with
    | client dispatchers running hd hw => exact .update hw.handlers_kept.subset
    | prune dispatchers running hd hpc hb => exact .update_of_eq hb.msgHandlers
  | reconnected i =>
    simp only [act] at h
    split_ifs at h
    cases h
    exact .update_of_eq rfl
  | cancelDispatcher i =>
    simp only [act] at h
    split at h
    · cases h
    · cases h
      exact .refl _
  | brokerAck i | connectionLost i | close i | dropPipe i =>
    cases h
    exact .update_of_eq rfl

end Router

namespace RouterObjects

open Exec

variable {KP : Type} {A : Aio KP} {s t u : RouterObjects KP} {i x : ℕ}

theorem mem_managed : i ∈ s.managed ↔
    ∃ af table host, s.clients.get? af = some table ∧ table.get? host = some i := by
  simp [managed, PyDict.get?_eq_some_iff]

structure Extends (s t : RouterObjects KP) : Prop where
  clients : t.clients = s.clients
  recvMsgIds : t.recvMsgIds = s.recvMsgIds
  msgHandlers : t.msgHandlers = s.msgHandlers
  made : s.made ≤ t.made
  handlers : ∀ i < s.made, (s.objects i).msgHandlers.toList ⊆ (t.objects i).msgHandlers.toList
  recvTable : ∀ i < s.made, t.recvTable i = s.recvTable i

theorem Extends.refl (s : RouterObjects KP) : Extends s s :=
  ⟨rfl, rfl, rfl, le_rfl, fun _ _ => List.Subset.refl _, fun _ _ => rfl⟩

theorem Extends.trans (h : Extends s t) (h' : Extends t u) : Extends s u where
  clients := h'.clients.trans h.clients
  recvMsgIds := h'.recvMsgIds.trans h.recvMsgIds
  msgHandlers := h'.msgHandlers.trans h.msgHandlers
  made := h.made.trans h'.made
  handlers i hi := List.Subset.trans (h.handlers i hi) (h'.handlers i (hi.trans_le h.made))
  recvTable i hi := (h'.recvTable i (hi.trans_le h.made)).trans (h.recvTable i hi)

/-- Every client of the router has all its handlers and refers to its table. -/
structure Uniform (s : RouterObjects KP) : Prop where
  made : ∀ i ∈ s.managed, i < s.made
  handlers : ∀ i ∈ s.managed, ∀ x ∈ s.msgHandlers, x ∈ (s.objects i).msgHandlers.toList
  recvTable : ∀ i ∈ s.managed, s.recvTable i = s.recvMsgIds

theorem Uniform.extends (hs : Uniform s) (h : Extends s t) : Uniform t := by
  have hmanaged : t.managed = s.managed := by rw [managed, managed, h.clients]
  constructor
  · intro i hi
    rw [hmanaged] at hi
    exact (hs.made i hi).trans_le h.made
  · intro i hi x hx
    rw [hmanaged] at hi
    rw [h.msgHandlers] at hx
    exact h.handlers i (hs.made i hi) (hs.handlers i hi x hx)
  · intro i hi
    rw [hmanaged] at hi
    rw [h.recvTable i (hs.made i hi), h.recvMsgIds, hs.recvTable i hi]

theorem extends_setObject {c : MQTTClient KP} (hc : (s.objects i).msgHandlers.toList ⊆
    c.msgHandlers.toList) : Extends s (s.setObject i c) where
  clients := rfl
  recvMsgIds := rfl
  msgHandlers := rfl
  made := le_rfl
  handlers j _ := Router.HandlersKept.update hc j
  recvTable _ _ := rfl

theorem extends_setObject_of_eq {c : MQTTClient KP}
    (hc : c.msgHandlers = (s.objects i).msgHandlers) : Extends s (s.setObject i c) :=
  extends_setObject (by rw [hc]; exact List.Subset.refl _)

theorem extends_addHandler (s : RouterObjects KP) (i x : ℕ) : Extends s (s.addHandler i x) :=
  extends_setObject fun _ hy => HandlerSet.mem_add.mpr (Or.inl hy)

theorem mem_addHandler (s : RouterObjects KP) (i x : ℕ) :
    x ∈ ((s.addHandler i x).objects i).msgHandlers.toList := by
  have hobject : (s.addHandler i x).objects i =
      { s.objects i with msgHandlers := (s.objects i).msgHandlers.add x } :=
    Function.update_self ..
  rw [hobject]
  exact HandlerSet.mem_add.mpr (Or.inr rfl)

section Foldl

variable {β : Type} {f : RouterObjects KP → β → RouterObjects KP} {bs : List β} {b : β}

theorem extends_foldl (hf : ∀ s b, Extends s (f s b)) (bs : List β) (s : RouterObjects KP) :
    Extends s (bs.foldl f s) := by
  induction bs generalizing s with
  | nil => exact .refl s
  | cons b bs ih => exact (hf s b).trans (ih (f s b))

theorem mem_handlers_foldl (hf : ∀ s b, Extends s (f s b)) (hi : i < s.made) (hb : b ∈ bs)
    (hadd : ∀ u, x ∈ ((f u b).objects i).msgHandlers.toList) :
    x ∈ ((bs.foldl f s).objects i).msgHandlers.toList := by
  induction bs generalizing s with
  | nil => cases hb
  | cons b' bs ih =>
    have hi' : i < (f s b').made := hi.trans_le (hf s b').made
    rcases List.mem_cons.mp hb with rfl | hb
    · exact (extends_foldl hf bs _).handlers i hi' (hadd s)
    · exact ih hi' hb

end Foldl

theorem extends_newClient (s : RouterObjects KP) (kp : KP) (address : BrokerClient) :
    Extends s (s.newClient kp address) where
  clients := rfl
  recvMsgIds := rfl
  msgHandlers := rfl
  made := Nat.le_succ _
  handlers i hi := by
    change _ ⊆ (Function.update s.objects s.made _ i).msgHandlers.toList
    rw [Function.update_of_ne hi.ne]
    exact List.Subset.refl _
  recvTable i hi := Function.update_of_ne hi.ne ..

theorem extends_connected (s : RouterObjects KP) (i : ℕ) (republishDuration : ℚ)
    (interval : PyNum) (keepAlive : ℚ)
    (ignoreAcked isNew : Bool) :
    Extends s (s.connected i republishDuration interval keepAlive ignoreAcked isNew) := by
  have hext : Extends s (s.connected i republishDuration interval keepAlive ignoreAcked false) :=
    extends_setObject_of_eq rfl
  cases isNew with
  | false => exact hext
  | true => exact ⟨rfl, rfl, rfl, le_rfl, hext.handlers, fun _ _ => rfl⟩

theorem extends_pipeConnected (s : RouterObjects KP) (clients : List ℕ) (msgCb : Option ℕ) :
    Extends s (s.pipeConnected clients msgCb) := by
  cases msgCb with
  | none => exact .refl s
  | some x => exact extends_foldl (fun s i => extends_addHandler s i x) clients s

theorem uniform_addMsgHandler (hs : Uniform s) (x : ℕ) : Uniform (s.addMsgHandler x) := by
  have hext : Extends { s with msgHandlers := s.msgHandlers ++ [x] } (s.addMsgHandler x) :=
    extends_foldl (fun s i => extends_addHandler s i x) s.managed _
  have hmanaged : (s.addMsgHandler x).managed = s.managed := by
    rw [managed, hext.clients]
    rfl
  constructor
  · intro i hi
    rw [hmanaged] at hi
    exact (hs.made i hi).trans_le hext.made
  · intro i hi y hy
    rw [hmanaged] at hi
    rw [hext.msgHandlers] at hy
    rcases List.mem_append.mp hy with hy | hy
    · exact hext.handlers i (hs.made i hi) (hs.handlers i hi y hy)
    · obtain rfl := List.mem_singleton.mp hy
      have hi' : i < ({ s with msgHandlers := s.msgHandlers ++ [y] } : RouterObjects KP).made :=
        hs.made i hi
      apply mem_handlers_foldl (fun s i => extends_addHandler s i y) hi' hi
      exact fun u => mem_addHandler u i y
  · intro i hi
    rw [hmanaged] at hi
    rw [hext.recvTable i (hs.made i hi), hext.recvMsgIds]
    exact hs.recvTable i hi

theorem uniform_addClient (hs : Uniform s) {b : BrokerClient} {table : PyDict String ℕ}
    (htable : s.clients.get? b.af = some table) :
    Uniform (s.addClient b table) ∧ (s.addClient b table).msgHandlers = s.msgHandlers := by
  have hnew := extends_newClient s s.kp b
  have hloop := extends_foldl (fun t x => extends_addHandler t s.made x) s.msgHandlers
    (s.newClient s.kp b)
  have hext := hnew.trans hloop
  have hmanaged : ∀ i ∈ (s.addClient b table).managed, i = s.made ∨ i ∈ s.managed := by
    intro i hi
    obtain ⟨af, table', host, haf, hhost⟩ := mem_managed.mp hi
    rw [addClient, hext.clients, PyDict.get?_set] at haf
    split_ifs at haf with h
    · cases haf
      rw [PyDict.get?_set] at hhost
      split_ifs at hhost with h'
      · exact Or.inl (Option.some.inj hhost).symm
      · exact Or.inr (mem_managed.mpr ⟨_, _, _, htable, hhost⟩)
    · exact Or.inr (mem_managed.mpr ⟨_, _, _, haf, hhost⟩)
  have hmade : s.made < (s.addClient b table).made := Nat.lt_of_succ_le hloop.made
  refine ⟨⟨?_, ?_, ?_⟩, hext.msgHandlers⟩
  · intro i hi
    obtain rfl | hi := hmanaged i hi
    · exact hmade
    · exact (hs.made i hi).trans hmade
  · intro i hi x hx
    rw [addClient, hext.msgHandlers] at hx
    obtain rfl | hi := hmanaged i hi
    · apply mem_handlers_foldl (fun t x => extends_addHandler t s.made x) (Nat.lt_succ_self _) hx
      exact fun u => mem_addHandler u s.made x
    · exact hext.handlers i (hs.made i hi) (hs.handlers i hi x hx)
  · intro i hi
    change Function.update _ s.made _ i = _
    obtain rfl | hi := hmanaged i hi
    · rw [Function.update_self]
      rfl
    · rw [Function.update_of_ne (hs.made i hi).ne, hext.recvTable i (hs.made i hi), hs.recvTable i hi]
      exact hext.recvMsgIds.symm

def Keeps (s t : RouterObjects KP) : Prop := (Uniform s → Uniform t) ∧ t.msgHandlers = s.msgHandlers

theorem Keeps.refl (s : RouterObjects KP) : Keeps s s := ⟨id, rfl⟩

theorem Keeps.trans (h : Keeps s t) (h' : Keeps t u) : Keeps s u :=
  ⟨h'.1 ∘ h.1, h'.2.trans h.2⟩

theorem Extends.keeps (h : Extends s t) : Keeps s t := ⟨fun hs => hs.extends h, h.msgHandlers⟩

theorem keeps_bind {α β : Type} {m : RouterM KP α} {f : α → RouterM KP β}
    (hm : Keeps s (final (m s))) (hf : ∀ a t, m s = .ok a t → Keeps t (final (f a t))) :
    Keeps s (final ((m >>= f) s)) :=
  rel_final_bind Keeps Keeps.trans hm hf

theorem ensureClient_spec (af : ℕ) (host : String) (port : ℕ) (s : RouterObjects KP) :
    final (ensureClient af host port s) = s ∨ ∃ table, s.clients.get? af = some table ∧
      final (ensureClient af host port s) = s.addClient ⟨af, host, port⟩ table := by
  simp only [ensureClient, bind_apply, get_apply]
  split_ifs
  · cases htable : s.clients.get? af with
    | none => exact Or.inl rfl
    | some table =>
      cases hhost : table.get? host with
      | some existing =>
        simp only [hhost]
        exact Or.inl rfl
      | none =>
        simp only [hhost]
        exact Or.inr ⟨table, rfl, rfl⟩
  · exact Or.inl rfl

theorem keeps_ensureClient (af : ℕ) (host : String) (port : ℕ) (s : RouterObjects KP) :
    Keeps s (final (ensureClient af host port s)) := by
  obtain h | ⟨table, htable, h⟩ := ensureClient_spec af host port s
  · rw [h]
    exact .refl s
  · rw [h]
    constructor
    · exact fun hs => (uniform_addClient hs htable).1
    · exact (extends_foldl (fun t x => extends_addHandler t s.made x) s.msgHandlers _).msgHandlers

theorem keeps_toTry (hints : List HintBroker) (s : RouterObjects KP) :
    Keeps s (final (toTry hints s)) := by
  induction hints generalizing s with
  | nil => exact .refl s
  | cons hint hints ih =>
    unfold toTry
    cases hint.broker with
    | none => exact ih s
    | some b =>
      apply keeps_bind (keeps_ensureClient ..)
      rintro client t -
      apply keeps_bind (ih t)
      rintro clients u -
      exact .refl u

theorem keeps_seedHosts (af : ℕ) (hosts : List (String × Server)) (s : RouterObjects KP) :
    Keeps s (final (seedHosts af hosts s)) := by
  induction hosts generalizing s with
  | nil => exact .refl s
  | cons e hosts ih =>
    apply keeps_bind (keeps_ensureClient ..)
    rintro _ t -
    exact ih t

theorem keeps_seedFamilies (P : Platform) (nic : List Family) (pool : BrokerPool)
    (fams : List Family) (s : RouterObjects KP) :
    Keeps s (final (seedFamilies P nic pool fams s)) := by
  induction fams generalizing s with
  | nil => exact .refl s
  | cons fam fams ih =>
    unfold seedFamilies
    split_ifs
    · apply keeps_bind (keeps_seedHosts ..)
      rintro _ t -
      exact ih t
    · exact ih s

theorem uniform_blank (P : Platform) (nic : List Family) (kp : KP) (msgHandler : Option ℕ)
    (clock : ℚ) : Uniform (blank P nic kp msgHandler clock) := by
  have hnone : ∀ i, i ∉ (blank P nic kp msgHandler clock).managed := by
    intro i hi
    obtain ⟨af, table, host, haf, hhost⟩ := mem_managed.mp hi
    simp only [blank, PyDict.get?_set] at haf
    split_ifs at haf <;> cases haf <;> cases hhost
  exact ⟨fun i hi => absurd hi (hnone i), fun i hi => absurd hi (hnone i),
    fun i hi => absurd hi (hnone i)⟩

theorem uniform_construct {P : Platform} {nic : List Family} {pool : BrokerPool} {kp : KP}
    {msgHandler : Option ℕ} {clock : ℚ} (h : construct P nic pool kp msgHandler clock = .ok s) :
    Uniform s ∧ s.msgHandlers = msgHandler.toList := by
  have hkeeps := keeps_seedFamilies P nic pool [.v4, .v6] (blank P nic kp msgHandler clock)
  unfold construct at h
  cases hseed : seedFamilies P nic pool [.v4, .v6] (blank P nic kp msgHandler clock) with
  | error e t =>
    rw [hseed] at h
    cases h
  | ok _ t =>
    rw [hseed] at h hkeeps
    cases h
    exact ⟨hkeeps.1 (uniform_blank ..), hkeeps.2⟩

theorem extends_put {table : ℕ} {a : Action ℕ} {r : Router KP ℕ}
    (h : (s.view table).step A a = some r) : Extends s (s.put table r) where
  clients := rfl
  recvMsgIds := rfl
  msgHandlers := rfl
  made := le_rfl
  handlers i _ := Router.handlersKept_step h i
  recvTable _ _ := rfl

theorem loop_spec {a : Action ℕ} (h : s.loop A a = some t) : ∃ table r,
    (s.actor a = none ∧ table = s.recvMsgIds ∨ ∃ i, s.actor a = some i ∧ table = s.recvTable i) ∧
      (s.view table).step A a = some r ∧ t = s.put table r := by
  unfold loop at h
  cases ha : s.actor a with
  | none =>
    rw [ha] at h
    obtain ⟨r, hr, rfl⟩ := Option.map_eq_some_iff.mp h
    exact ⟨_, r, Or.inl ⟨rfl, rfl⟩, hr, rfl⟩
  | some i =>
    rw [ha] at h
    simp only at h
    split_ifs at h
    obtain ⟨r, hr, rfl⟩ := Option.map_eq_some_iff.mp h
    exact ⟨_, r, Or.inr ⟨i, rfl, rfl⟩, hr, rfl⟩

theorem ifFree_eq_some (h : s.ifFree t = some u) : u = t := by
  unfold ifFree at h
  split_ifs at h
  exact (Option.some.inj h).symm

theorem step_spec {a : ObjectAct KP} (h : step A s a = some t) :
    (Uniform s → Uniform t) ∧ t.msgHandlers = s.msgHandlers ++ a.handler.toList := by
  have hkeeps : Keeps s t → a.handler = none →
      (Uniform s → Uniform t) ∧ t.msgHandlers = s.msgHandlers ++ a.handler.toList := by
    intro hk hnone
    rw [hnone, Option.toList_none, List.append_nil]
    exact hk
  cases a with
  | loop a =>
    obtain ⟨table, r, -, hr, rfl⟩ := loop_spec h
    exact hkeeps (extends_put hr).keeps rfl
  | ensureClient af host port =>
    obtain rfl := ifFree_eq_some h
    exact hkeeps (keeps_ensureClient ..) rfl
  | addMsgHandler x =>
    obtain rfl := ifFree_eq_some h
    exact ⟨fun hs => uniform_addMsgHandler hs x,
      (extends_foldl (fun s i => extends_addHandler s i x) s.managed _).msgHandlers⟩
  | toTry hints =>
    obtain rfl := ifFree_eq_some h
    exact hkeeps (keeps_toTry ..) rfl
  | pipeConnected clients msgCb =>
    simp only [step] at h
    split_ifs at h
    obtain rfl := ifFree_eq_some h
    exact hkeeps (extends_pipeConnected s clients msgCb).keeps rfl
  | newClient kp address =>
    obtain rfl := ifFree_eq_some h
    exact hkeeps (extends_newClient s kp address).keeps rfl
  | connected i republishDuration interval keepAlive ignoreAcked isNew =>
    simp only [step] at h
    split at h
    · split_ifs at h
      obtain rfl := ifFree_eq_some h
      exact hkeeps (extends_connected ..).keeps rfl
    · cases h
  | resetSession i =>
    simp only [step] at h
    split_ifs at h
    obtain rfl := ifFree_eq_some h
    have hext : Extends s (s.setObject i (s.objects i).resetSession) := extends_setObject_of_eq rfl
    exact hkeeps hext.keeps rfl
  | idleClosed i =>
    simp only [step] at h
    split_ifs at h
    obtain rfl := ifFree_eq_some h
    have hext : Extends s (s.setObject i (s.objects i).idleClosed) := extends_setObject_of_eq rfl
    exact hkeeps hext.keeps rfl

theorem run_uniform {as : List (ObjectAct KP)} (hs : Uniform s)
    (h : Machine.run (step A) s as = some t) : Uniform t :=
  Machine.run_preserves (fun _ _ _ hs h => (step_spec h).1 hs) hs h

theorem run_msgHandlers {as : List (ObjectAct KP)} (h : Machine.run (step A) s as = some t) :
    t.msgHandlers = s.msgHandlers ++ as.filterMap ObjectAct.handler := by
  induction as generalizing s with
  | nil =>
    cases h
    exact (List.append_nil _).symm
  | cons a as ih =>
    obtain ⟨u, hu, ht⟩ := Machine.run_cons_eq_some.mp h
    rw [ih ht, (step_spec hu).2, List.append_assoc]
    cases ha : a.handler with
    | none => simp [ha]
    | some x => simp [ha]

/-- Where clients of the router act, the event loop of the objects is the router's. -/
theorem map_router_loop (hs : Uniform s) {a : Action ℕ}
    (ha : ∀ i, s.actor a = some i → i ∈ s.managed) :
    (s.loop A a).map router = s.router.step A a := by
  have hput : router ∘ s.put s.recvMsgIds = id := by
    funext r
    change ({ r with recvMsgIds := Function.update s.tables s.recvMsgIds r.recvMsgIds s.recvMsgIds } :
      Router KP ℕ) = r
    rw [Function.update_self]
  unfold loop
  cases hactor : s.actor a with
  | none => simp only [Option.map_map, hput, Option.map_id_fun, id_eq, router]
  | some i =>
    have hi := ha i hactor
    simp only [if_pos (hs.made i hi), hs.recvTable i hi, Option.map_map, hput, Option.map_id_fun,
      id_eq, router]

/-- A run of the router's clients is one of the event loop with one table. -/
theorem run_router {as : List (Action ℕ)} (hs : Uniform s)
    (hm : Machine.Meets (fun s a => loop s A a) (fun s a => ∀ i, s.actor a = some i → i ∈ s.managed)
      s as)
    (h : Machine.run (fun s a => loop s A a) s as = some t) :
    Machine.run (Router.step A) s.router as = some t.router := by
  induction as generalizing s with
  | nil =>
    cases h
    rfl
  | cons a as ih =>
    obtain ⟨u, hu, ht⟩ := Machine.run_cons_eq_some.mp h
    have hstep : Router.step A s.router a = some u.router := by
      rw [← map_router_loop hs hm.1, hu]
      rfl
    have hu' : Uniform u := by
      obtain ⟨table, r, -, hr, rfl⟩ := loop_spec hu
      exact hs.extends (extends_put hr)
    exact Machine.run_cons_eq_some.mpr ⟨_, hstep, ih hu' (hm.2 u hu) ht⟩

/-- After every run each client of the router has all handlers ever registered on the router, and
they refer to one table, so that what an action of one of them writes into it or deletes from it is
what all of them find. -/
theorem managed_clients_uniform (A : Aio KP) (P : Platform) (nic : List Family) (pool : BrokerPool)
    (kp : KP) (msgHandler : Option ℕ) (clock : ℚ) {as : List (ObjectAct KP)}
    (h₀ : construct P nic pool kp msgHandler clock = .ok s)
    (h : Machine.run (step A) s as = some t) :
    (∀ i ∈ t.managed, t.recvTable i = t.recvMsgIds ∧
      ∀ x ∈ registered msgHandler as, x ∈ (t.objects i).msgHandlers.toList) ∧
    ∀ i ∈ t.managed, ∀ a u, t.actor a = some i → t.loop A a = some u →
      ∃ r, Router.step A (t.view (t.recvTable i)) a = some r ∧
        ∀ j ∈ u.managed, u.tables (u.recvTable j) = r.recvMsgIds := by
  obtain ⟨hs, hmsg⟩ := uniform_construct h₀
  have ht := run_uniform hs h
  have hreg : t.msgHandlers = registered msgHandler as := by
    rw [run_msgHandlers h, hmsg]
    rfl
  constructor
  · intro i hi
    rw [← hreg]
    exact ⟨ht.recvTable i hi, ht.handlers i hi⟩
  · intro i hi a u ha hu
    have hu' : Uniform u := (step_spec (a := .loop a) hu).1 ht
    obtain ⟨table, r, htable, hr, rfl⟩ := loop_spec hu
    have htable' : table = t.recvTable i := by
      obtain ⟨hnone, -⟩ | ⟨j, hj, rfl⟩ := htable
      · rw [ha] at hnone
        cases hnone
      · rw [ha] at hj
        cases hj
        rfl
    subst htable'
    refine ⟨r, hr, fun j hj => ?_⟩
    rw [hu'.recvTable j hj]
    change Function.update t.tables (t.recvTable i) r.recvMsgIds t.recvMsgIds = r.recvMsgIds
    rw [ht.recvTable i hi, Function.update_self]

/-- A pool of one broker, then a hint, a second handler, and a pipe with a callback of its own. -/
theorem managed_clients_uniform_two : ∃ s t : RouterObjects ℕ,
    construct linux [.v6] (poolV6 ["a"]) 7 (some 5) 0 = .ok s ∧
    Machine.run (step concrete) s [.toTry [⟨some 10, some "b", some 1883⟩], .addMsgHandler 6,
      .pipeConnected [1] (some 8), .ensureClient 10 "c" 1883] = some t ∧
    t.managed = [0, 1, 2] ∧
    ∀ i ∈ t.managed, t.recvTable i = t.recvMsgIds ∧
      ∀ x ∈ [5, 6], x ∈ (t.objects i).msgHandlers.toList := by
  have halike : ∀ s t : RouterObjects ℕ, construct linux [.v6] (poolV6 ["a"]) 7 (some 5) 0 = .ok s →
      Machine.run (step concrete) s [.toTry [⟨some 10, some "b", some 1883⟩], .addMsgHandler 6,
        .pipeConnected [1] (some 8), .ensureClient 10 "c" 1883] = some t →
      ∀ i ∈ t.managed, t.recvTable i = t.recvMsgIds ∧
        ∀ x ∈ [5, 6], x ∈ (t.objects i).msgHandlers.toList := by
    intro s t h₀ h
    exact (managed_clients_uniform concrete linux [.v6] (poolV6 ["a"]) 7 (some 5) 0 h₀ h).1
  exact ⟨_, _, rfl, rfl, rfl, halike _ _ rfl rfl⟩

end RouterObjects

end Sidewire
