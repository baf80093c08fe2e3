import Mathlib.Logic.Encodable.Basic
import Sidewire.Mqtt.Addresses
import Sidewire.Mqtt.AsyncSend
import Sidewire.Network.AckSound
import Sidewire.Pipes.Send

/-! # From one end of a pipe to the other

A call of `SmartPipe.send` shares its clients with the router of its party, and
the tasks that it waits for end with futures of that router. Put together with
the routers of all parties and the network between them, what `send` returns
says what has happened at the destination.
-/

namespace Sidewire

namespace MQTTClient

variable {KP : Type} {A : Aio KP} {c d : MQTTClient KP} {q dest : String}

theorem queueMsg_registers (hA : A.Lawful) {rnd : ℕ} {now : ℚ} {msg : PyMsg} {t : MsgEnum}
    {x : String × ℤ} {a : ℕ} (h : queueMsg A rnd now msg dest q t none c = .ok (x, a) d) :
    ∃ y ∈ d.queued, y.appAck = a ∧ y.msgType = t ∧ y.queueIdHex = q ∧ y.destPkHex = dest ∧
      y.msg = msg := by
  have hr := Callers.registers_exec (t := t) (q := q) hA rnd now now msg dest
    { c with lastSend := some now }
  simp only [Call.exec, ← orderedAckSend_eq] at hr
  have ho : orderedAckSend A rnd now msg dest q t none { c with lastSend := some now } =
      .ok (x, a) d := h
  rw [ho] at hr
  obtain ⟨-, -, out, hy⟩ := hr.sent rfl
  obtain ⟨hx, -⟩ := queueMsg_eq_ok h
  exact ⟨_, hy, rfl, rfl, hx, rfl, rfl⟩

end MQTTClient

namespace Send

open MQTTClient

variable {KP : Type} {pipe : SmartPipe} {msg : PyMsg} {q : String} {s t u : Send KP}

/-- `dequeue_msg` on every client of the pipe. -/
def dequeueAll (q : String) (is : List ℕ) (clients : ℕ → MQTTClient KP) : ℕ → MQTTClient KP :=
  is.foldl (fun cs i => Function.update cs i ((cs i).dequeueMsg q none .msg)) clients

structure Tidies (pipe : SmartPipe) (q : String) (s t : Send KP) : Prop where
  clients : t.clients = s.clients ∨ t.clients = dequeueAll q pipe.clients s.clients
  waits : ∀ w' ∈ t.waits, ∃ w ∈ s.waits,
    w'.client = w.client ∧ w'.appAck = w.appAck ∧ w'.ended = w.ended

namespace Tidies

theorem of_stage (stage : SendStage) (cancelled : Bool) :
    Tidies pipe q s { s with stage, cancelled } :=
  ⟨.inl rfl, fun w hw => ⟨w, hw, rfl, rfl, rfl⟩⟩

theorem of_finish (s : Send KP) (exit : SendExit) : Tidies pipe q s (s.finish pipe q exit) :=
  ⟨.inr rfl, fun w hw => ⟨w, hw, rfl, rfl, rfl⟩⟩

theorem of_cancelTasks (s : Send KP) (tasks : List ℕ) (stage : SendStage) (cancelled : Bool) :
    Tidies pipe q s { s.cancelTasks tasks with stage, cancelled } := by
  refine ⟨.inl rfl, fun w' hw' => ?_⟩
  obtain ⟨k, hk⟩ := List.mem_iff_getElem?.mp hw'
  simp only [cancelTasks, List.getElem?_mapIdx, Option.map_eq_some_iff] at hk
  obtain ⟨w, hw, rfl⟩ := hk
  refine ⟨w, List.mem_of_getElem? hw, ?_⟩
  split_ifs <;> exact ⟨rfl, rfl, rfl⟩

theorem of_leave (s : Send KP) (tasks : List ℕ) (exit : SendExit) :
    Tidies pipe q s (s.leave pipe q tasks exit) := by
  unfold leave
  split_ifs
  · exact of_finish s exit
  · exact of_cancelTasks s tasks _ s.cancelled

theorem of_await (s : Send KP) (tasks : List ℕ) : Tidies pipe q s (s.await pipe q tasks) := by
  unfold await
  split_ifs
  · exact of_leave s [] _
  · exact of_stage _ s.cancelled

theorem of_start (pipe : SmartPipe) (msg : PyMsg) (q : String) (A : Aio KP) (rnd : ℕ → ℕ)
    (now : ℕ → ℚ) (clients : ℕ → MQTTClient KP) :
    Tidies pipe q ⟨(queueAll pipe msg q A rnd now pipe.clients clients).1,
      (queueAll pipe msg q A rnd now pipe.clients clients).2, .waiting [], false⟩
      (start pipe msg q A rnd now clients) :=
  of_await _ _

end Tidies

theorem step_cases {e : Event KP} (h : step pipe msg q s e = some t) :
    (∃ i c, e = .other i c) ∨ Tidies pipe q s t ∨
      ∃ k o w, e = .taskEnds k o ∧ s.waits[k]? = some w ∧
        t = { s with waits := s.waits.set k { w with ended := some o } } := by
  cases e with
  | other i c => exact .inl ⟨i, c, rfl⟩
  | taskEnds k o =>
    simp only [step] at h
    split at h
    · rename_i w hw
      split_ifs at h
      cases h
      exact .inr (.inr ⟨k, o, w, rfl, hw, rfl⟩)
    · cases h
  | wake done =>
    right; left
    cases hstage : s.stage with
    | waiting tasks =>
      simp only [step, hstage] at h
      by_cases hdone : done ≠ [] ∧ done.Perm (tasks.filter fun k => (s.endOf k).isSome)
      · rw [if_pos hdone] at h
        cases hl : s.loop msg done with
        | none =>
          rw [hl] at h
          cases h
          exact .of_await s _
        | some exit =>
          rw [hl] at h
          cases exit with
          | returned n =>
            simp only at h
            split_ifs at h
            · cases h
              exact .of_leave s tasks _
            · cases h
              exact .of_cancelTasks s _ _ s.cancelled
          | cancelledError =>
            cases h
            exact .of_leave s tasks _
      · rw [if_neg hdone] at h
        cases h
    | gathering | cleaning | ended => simp [step, hstage] at h
  | gathered =>
    right; left
    cases hstage : s.stage with
    | gathering tasks pending interrupted =>
      simp only [step, hstage] at h
      split_ifs at h <;> cases h <;> exact .of_leave s tasks _
    | cleaning tasks exit interrupted =>
      simp only [step, hstage] at h
      split_ifs at h
      · cases h
        exact .of_stage _ s.cancelled
      · cases h
        exact .of_finish s exit
    | waiting | ended => simp [step, hstage] at h
  | cancel =>
    right; left
    rw [step] at h
    split_ifs at h
    cases hstage : s.stage with
    | waiting tasks =>
      simp only [hstage, Option.some.injEq] at h
      rw [← h]
      obtain ⟨hc, hw⟩ : Tidies pipe q _ _ :=
        .of_leave { s with cancelled := true } tasks .cancelledError
      exact ⟨hc, hw⟩
    | gathering tasks pending interrupted =>
      simp only [hstage, Option.some.injEq] at h
      rw [← h]
      exact .of_cancelTasks s pending _ true
    | cleaning tasks exit interrupted =>
      simp only [hstage, Option.some.injEq] at h
      rw [← h]
      exact .of_cancelTasks s tasks _ true
    | ended => simp [hstage] at h

theorem sound_clients (clients : ℕ → MQTTClient KP) (h : s.Sound msg) :
    Sound msg { s with clients } := h

/-- What a task of `send` waits for: the future of the message on one of its clients. -/
def Registered (pipe : SmartPipe) (msg : PyMsg) (q : String) (clients : ℕ → MQTTClient KP)
    (w : WaitTask) : Prop :=
  ∃ x ∈ (clients w.client).queued, x.appAck = w.appAck ∧ x.msgType = .msg ∧ x.queueIdHex = q ∧
    x.destPkHex = pipe.destPubHex ∧ x.msg = msg

variable (pipe msg) in
theorem queueAll_spec {A : Aio KP} (hA : A.Lawful) (rnd : ℕ → ℕ) (now : ℕ → ℚ) (is : List ℕ)
    (clients : ℕ → MQTTClient KP) :
    (∀ k, (clients k).queued <+: ((queueAll pipe msg q A rnd now is clients).1 k).queued) ∧
      ∀ w ∈ (queueAll pipe msg q A rnd now is clients).2,
        Registered pipe msg q (queueAll pipe msg q A rnd now is clients).1 w := by
  induction is generalizing clients with
  | nil => exact ⟨fun _ => List.prefix_rfl, by simp [queueAll]⟩
  | cons i is ih =>
    have hgrows : ∀ k, (clients k).queued <+: (Function.update clients i (Exec.final
        ((clients i).queueMsg A (rnd is.length) (now is.length) msg pipe.destPubHex q .msg none))
          k).queued := by
      intro k
      by_cases hk : k = i
      · subst hk
        rw [Function.update_self]
        exact (writes_queueMsg (P := fun _ => True) hA fun _ _ _ => trivial).grows.queued
      · rw [Function.update_of_ne hk]
    rw [queueAll]
    cases hq : (clients i).queueMsg A (rnd is.length) (now is.length) msg pipe.destPubHex q .msg
        none with
    | ok out c =>
      obtain ⟨hrest, hreg⟩ := ih (Function.update clients i c)
      rw [hq, Exec.final_ok] at hgrows
      refine ⟨fun k => (hgrows k).trans (hrest k), fun w hw => ?_⟩
      rcases List.mem_cons.mp hw with rfl | hw
      · obtain ⟨y, hy, hack, hty, hq', hdest, hmsg⟩ := queueMsg_registers hA hq
        refine ⟨y, (hrest i).subset ?_, hack, hty, hq', hdest, hmsg⟩
        rw [Function.update_self]
        exact hy
      · exact hreg w hw
    | error e c =>
      obtain ⟨hrest, hreg⟩ := ih (Function.update clients i c)
      rw [hq] at hgrows
      exact ⟨fun k => (hgrows k).trans (hrest k), hreg⟩

end Send

theorem Router.step_idle {KP ι : Type} [DecidableEq ι] {A : Aio KP} {r : Router KP ι}
    {a : Action ι} (h : r.running = none) : r.step A a = r.act A a := by
  unfold Router.step
  rw [h]

namespace Net

open MQTTClient Router

variable {P KP ι : Type} {A : Aio KP} {F : Except PyExc Bytes → Prop} {n n' : Net P KP ι} {p R : P}
  {a : Action ι} {q : String} {x : P × Action ι}

/-- A call of `dequeue_msg` that resolves one future. -/
def disabling : Action ι → Option (String × MsgEnum)
  | .dequeueMsg _ q (some _) t => some (q, t)
  | _ => none

/-- The network is honest and confuses nothing on the queue ids followed, and the sender's
application gives up no message of the queue id by its number. -/
structure Faithful (A : Aio KP) (F : Except PyExc Bytes → Prop) (p R : P) (q : String)
    (n : Net P KP ι) (x : P × Action ι) : Prop where
  honest : Honest A onTopic n x
  unconfused : Unconfused A F R n x
  undisturbed : x.1 = p → (q, MsgEnum.msg) ∉ disabling x.2

instance [Fintype P] [Fintype ι] [DecidableEq P] [DecidablePred F] (x : P × Action ι) :
    Decidable (Faithful A F p R q n x) :=
  decidable_of_iff (Honest A onTopic n x ∧ Unconfused A F R n x ∧
      (x.1 = p → (q, MsgEnum.msg) ∉ disabling x.2))
    ⟨fun h => ⟨h.1, h.2.1, h.2.2⟩, fun h => ⟨h.1, h.2, h.3⟩⟩

theorem Faithful.of_quiet (hr : x.2.received = none) (hk : x.2.resumed = none)
    (hq : x.2.queuedAck = none) (hd : disabling x.2 = none) : Faithful A F p R q n x where
  honest y hy := by rw [hr] at hy; cases hy
  unconfused := .of_quiet hk hq
  undisturbed _ h := by rw [hd] at h; cases h

structure AckedOnly (A : Aio KP) (F : Except PyExc Bytes → Prop) (p R : P) (q : String)
    (n : Net P KP ι) : Prop where
  ackSound : AckSound A F R n
  acked : ∀ i, ∀ x ∈ ((n p).clients i).queued, x.msgType = .msg → x.queueIdHex = q →
    x.appAck ∈ ((n p).clients i).resolved → x.appAck ∈ ((n p).clients i).acked

theorem AckedOnly.of_fresh (h : ∀ p, Fresh (n p))
    (hkeys : Function.Injective fun p => A.pkHex (n p).kp)
    (hh : ∀ i, ((n R).clients i).msgHandlers.toList ≠ []) : AckedOnly A F p R q n where
  ackSound := .of_fresh h hkeys hh
  acked i x hx := by rw [(h p).queued] at hx; cases hx

variable [DecidableEq P] [DecidableEq ι]

theorem AckedOnly.step (hA : A.Lawful) (h : AckedOnly A F p R q n) (hf : Faithful A F p R q n x)
    (hstep : step A n x = some n') : AckedOnly A F p R q n' := by
  obtain ⟨p', a⟩ := x
  have hsound' := h.ackSound.step hA hf.honest hf.unconfused hstep
  have htrack := hsound'.traced.sound p
  have hadv := h.ackSound.traced.advances hA hstep
  obtain ⟨r', hr, rfl⟩ := step_eq_some hstep
  refine ⟨hsound', fun i x hx hty hq hres => ?_⟩
  have hg := hadv.grows p i
  -- resolved before, the message was acknowledged before
  have hold : x.appAck ∈ ((n p).clients i).resolved →
      x.appAck ∈ ((Function.update n p' r' p).clients i).acked := by
    intro hr'
    obtain ⟨y, hy, hack⟩ := ((h.ackSound.traced.sound p).tracked i).resolved _ hr'
    obtain rfl := (htrack.tracked i).eq_of_appAck (hg.queued.subset hy) hx hack
    exact hg.acked (h.acked i y hy hty hq hr')
  by_cases hp : p = p'
  · subst hp
    have hwr := step_writes hA (h.ackSound.traced.sound p) hr i
    rw [Function.update_self] at hres hx hold htrack hg ⊢
    obtain hr' | hr' | ⟨m, hc, hm⟩ := hwr.resolved_cases hres
    · exact hold hr'
    · exact hr'
    · cases hc with
      | @disabled q' s ty m he =>
        obtain ⟨msg, hmem⟩ := ((h.ackSound.traced.sound p).tracked i).entry he
        obtain rfl := (htrack.tracked i).eq_of_appAck (hg.queued.subset hmem) hx hm
        simp only [Queued.of] at hty hq
        subst hty hq
        exact absurd rfl (hf.undisturbed rfl)
  · rw [Function.update_of_ne hp] at hres
    exact hold hres

theorem AckedOnly.run (hA : A.Lawful) (h : AckedOnly A F p R q n) {as : List (P × Action ι)}
    (hm : Machine.Meets (Net.step A) (Faithful A F p R q) n as)
    (hr : Machine.run (Net.step A) n as = some n') :
    AckedOnly A F p R q n' ∧ Advances A n n' := by
  refine Machine.run_invariant (I := fun n' => AckedOnly A F p R q n' ∧ Advances A n n')
    (P := Faithful A F p R q) ?_ ⟨h, .refl n⟩ hm hr
  rintro n₁ ⟨p', a⟩ n₂ ⟨h₁, hadv⟩ hf hstep
  exact ⟨h₁.step hA hf hstep, hadv.trans (h₁.ackSound.traced.advances hA hstep)⟩

end Net

/-- A call of `send` in progress, without the clients, which it shares. -/
structure SendCall where
  waits : List WaitTask
  stage : SendStage
  cancelled : Bool

structure Sending (P KP ι : Type) where
  net : Net P KP ι
  call : Option SendCall

namespace Sending

open MQTTClient Router

variable {P KP ι : Type}

/-- A router does something, `send` is called, or it goes on. The clocks and the nonces of its
first loop go with the call. -/
inductive Act (P KP ι : Type)
  | net (x : P × Action ι)
  | start (rnd : ℕ → ℕ) (now : ℕ → ℚ)
  | event (e : Send.Event KP)

def numbered [Encodable ι] (r : Router KP ι) (clients : ι → MQTTClient KP) (k : ℕ) :
    MQTTClient KP :=
  match Encodable.decode₂ ι k with
  | some i => clients i
  | none => MQTTClient.init r.kp .empty

def Rising (t : ℚ) (now : ℕ → ℚ) (len : ℕ) : Prop :=
  ∀ m < len, t ≤ now m ∧ pyInt (now m) < 256 ^ timestampLen ∧ ∀ l < m, now m ≤ now l

instance (t : ℚ) (now : ℕ → ℚ) (len : ℕ) : Decidable (Rising t now len) :=
  inferInstanceAs (Decidable (∀ m < len, _))

def lastReading (t : ℚ) (now : ℕ → ℚ) (len : ℕ) : ℚ := if len = 0 then t else now 0

variable [DecidableEq P] [DecidableEq ι] [Encodable ι] (A : Aio KP) (pipe : SmartPipe) (msg : PyMsg)
  (q : String) (p : P)

omit [DecidableEq P] [DecidableEq ι] in
/-- What `send` sees. -/
def view (j : Sending P KP ι) (c : SendCall) : Send KP :=
  ⟨numbered (j.net p) (j.net p).clients, c.waits, c.stage, c.cancelled⟩

omit [DecidableEq ι] in
/-- What `send` leaves, at the time it does. -/
def put (j : Sending P KP ι) (s : Send KP) (clock : ℚ) : Sending P KP ι where
  net := Function.update j.net p
    { j.net p with clients := fun i => s.clients (Encodable.encode i), clock }
  call := some ⟨s.waits, s.stage, s.cancelled⟩

omit [DecidableEq P] [DecidableEq ι] in
/-- A task ends with an acknowledgement once its future is resolved, and what else happens to the
clients is up to the routers. -/
def Allowed (j : Sending P KP ι) (c : SendCall) : Send.Event KP → Prop
  | .taskEnds k .acked =>
    ∀ w ∈ c.waits[k]?, w.appAck ∈ (numbered (j.net p) (j.net p).clients w.client).resolved
  | .other _ _ => False
  | _ => True

omit [DecidableEq P] [DecidableEq ι] in
instance (j : Sending P KP ι) (c : SendCall) (e : Send.Event KP) : Decidable (Allowed p j c e) :=
  match e with
  | .taskEnds k o => by cases o <;> unfold Allowed <;> infer_instance
  | .other _ _ => isFalse id
  | .wake _ => isTrue trivial
  | .gathered => isTrue trivial
  | .cancel => isTrue trivial

def step (j : Sending P KP ι) : Act P KP ι → Option (Sending P KP ι)
  | .net x => (Net.step A j.net x).map fun n => { j with net := n }
  | .start rnd now =>
    match j.call with
    | some _ => none
    | none =>
      if (j.net p).running = none ∧ Rising (j.net p).clock now pipe.clients.length then
        some (put p j
          (Send.start pipe msg q A rnd now (numbered (j.net p) (j.net p).clients))
          (lastReading (j.net p).clock now pipe.clients.length))
      else none
  | .event e =>
    match j.call with
    | none => none
    | some c =>
      if (j.net p).running = none ∧ Allowed p j c e then
        (Send.step pipe msg q (view p j c) e).map fun s => put p j s (j.net p).clock
      else none

variable {A pipe msg q p} {F : Except PyExc Bytes → Prop} {R : P} {j j' : Sending P KP ι}
  {n n' : Net P KP ι} {is : List ι}

omit [DecidableEq ι] in
theorem numbered_encode (r : Router KP ι) (clients : ι → MQTTClient KP) (i : ι) :
    numbered r clients (Encodable.encode i) = clients i := by
  simp only [numbered, Encodable.encodek₂]

omit [DecidableEq ι] in
theorem numbered_cases (r : Router KP ι) (clients : ι → MQTTClient KP) (k : ℕ) :
    (∃ i, Encodable.encode i = k ∧ numbered r clients k = clients i) ∨
      numbered r clients k = MQTTClient.init r.kp .empty := by
  unfold numbered
  cases hd : Encodable.decode₂ ι k with
  | none => exact .inr rfl
  | some i => exact .inl ⟨i, Encodable.mem_decode₂.mp hd, rfl⟩

theorem numbered_update (r : Router KP ι) (clients : ι → MQTTClient KP) (i : ι)
    (c : MQTTClient KP) : numbered r (Function.update clients i c) =
      Function.update (numbered r clients) (Encodable.encode i) c := by
  funext k
  by_cases hk : k = Encodable.encode i
  · subst hk
    rw [numbered_encode, Function.update_self, Function.update_self]
  · rw [Function.update_of_ne hk]
    unfold numbered
    cases hd : Encodable.decode₂ ι k with
    | none => rfl
    | some l =>
      have hl : Encodable.encode l = k := Encodable.mem_decode₂.mp hd
      refine Function.update_of_ne ?_ _ _
      rintro rfl
      exact hk hl.symm

omit [DecidableEq P] [DecidableEq ι] in
theorem numbered_grows (hadv : Net.Advances A n n') (k : ℕ) :
    (numbered (n p) (n p).clients k).queued <+: (numbered (n' p) (n' p).clients k).queued ∧
      (numbered (n p) (n p).clients k).resolved ⊆ (numbered (n' p) (n' p).clients k).resolved := by
  unfold numbered
  cases Encodable.decode₂ ι k with
  | none => exact ⟨List.prefix_rfl, fun _ h => h⟩
  | some i => exact ⟨(hadv.grows p i).queued, (hadv.grows p i).resolved⟩

/-- The first loop of `send`, with the readings of the clock. -/
def queueActs (p : P) (pipe : SmartPipe) (msg : PyMsg) (q : String) (rnd : ℕ → ℕ) (now : ℕ → ℚ) :
    List ι → List (P × Action ι)
  | [] => []
  | i :: is => (p, .tick (now is.length)) ::
      (p, .queueMsg i (rnd is.length) msg pipe.destPubHex q .msg none) ::
        queueActs p pipe msg q rnd now is

/-- The last loop of `send`. -/
def dequeueActs (p : P) (q : String) (is : List ι) : List (P × Action ι) :=
  is.map fun i => (p, .dequeueMsg i q none .msg)

omit [DecidableEq P] [DecidableEq ι] [Encodable ι] in
theorem faithful_queueActs (rnd : ℕ → ℕ) (now : ℕ → ℚ) : ∀ {is : List ι},
    ∀ x ∈ queueActs p pipe msg q rnd now is, ∀ n : Net P KP ι, Net.Faithful A F p R q n x
  | i :: is, x, hx, n => by
    rcases List.mem_cons.mp hx with rfl | hx
    · exact .of_quiet rfl rfl rfl rfl
    · rcases List.mem_cons.mp hx with rfl | hx
      · exact .of_quiet rfl rfl rfl rfl
      · exact faithful_queueActs rnd now x hx n

omit [DecidableEq P] [DecidableEq ι] [Encodable ι] in
theorem faithful_dequeueActs : ∀ x ∈ dequeueActs p q is, ∀ n : Net P KP ι,
    Net.Faithful A F p R q n x := by
  intro x hx n
  obtain ⟨i, -, rfl⟩ := List.mem_map.mp hx
  exact .of_quiet rfl rfl rfl rfl

omit [DecidableEq P] [DecidableEq ι] [Encodable ι] in
theorem queueAll_cons (rnd : ℕ → ℕ) (now : ℕ → ℚ) (k : ℕ) (ks : List ℕ)
    (clients : ℕ → MQTTClient KP) :
    (Send.queueAll pipe msg q A rnd now (k :: ks) clients).1 =
      (Send.queueAll pipe msg q A rnd now ks (Function.update clients k (Exec.final
        ((clients k).queueMsg A (rnd ks.length) (now ks.length) msg pipe.destPubHex q .msg none)))).1 := by
  rw [Send.queueAll]
  cases (clients k).queueMsg A (rnd ks.length) (now ks.length) msg pipe.destPubHex q .msg none <;> rfl

variable (pipe msg is) in
theorem run_queueActs (rnd : ℕ → ℕ) (now : ℕ → ℚ) (hrun : (n p).running = none)
    (hnow : Rising (n p).clock now is.length) : ∃ cs,
      Machine.run (Net.step A) n (queueActs p pipe msg q rnd now is) = some (Function.update n p
        { n p with clients := cs, clock := lastReading (n p).clock now is.length }) ∧
      numbered (n p) cs = (Send.queueAll pipe msg q A rnd now (is.map Encodable.encode)
        (numbered (n p) (n p).clients)).1 := by
  induction is generalizing n with
  | nil => exact ⟨(n p).clients, congrArg some (Function.update_eq_self p n).symm, rfl⟩
  | cons i is ih =>
    obtain ⟨hle, hlt, hanti⟩ := hnow is.length (Nat.lt_succ_self _)
    let r : Router KP ι := { n p with clock := now is.length }
    let c := Exec.final (((n p).clients i).queueMsg A (rnd is.length) (now is.length) msg
      pipe.destPubHex q .msg none)
    let r' : Router KP ι := r.setClient i c
    have hself : Function.update n p r' p = r' := Function.update_self ..
    have htick : Net.step A n (p, .tick (now is.length)) = some (Function.update n p r) := by
      refine Option.map_eq_some_iff.mpr ⟨r, (step_idle hrun).trans ?_, rfl⟩
      exact if_pos (And.intro hle hlt)
    have hqueue : Net.step A (Function.update n p r)
        (p, .queueMsg i (rnd is.length) msg pipe.destPubHex q .msg none) =
          some (Function.update n p r') := by
      refine Option.map_eq_some_iff.mpr ⟨r', ?_, Function.update_idem ..⟩
      rw [Function.update_self, step_idle (r := r) hrun]
      exact congrArg some (call_eq ..)
    have hnow' : Rising (now is.length) now is.length := by
      intro m hm
      obtain ⟨-, hlt', hanti'⟩ := hnow m (Nat.lt_succ_of_lt hm)
      exact ⟨hanti m hm, hlt', hanti'⟩
    obtain ⟨cs, hrest, hcs⟩ := ih (n := Function.update n p r') (by rw [hself]; exact hrun)
      (by rw [hself]; exact hnow')
    rw [hself, Function.update_idem] at hrest
    rw [hself] at hcs
    refine ⟨cs, ?_, ?_⟩
    · refine Machine.run_cons_eq_some.mpr ⟨_, htick, Machine.run_cons_eq_some.mpr ⟨_, hqueue, ?_⟩⟩
      rw [hrest]
      have hclock : lastReading (now is.length) now is.length =
          lastReading (n p).clock now (i :: is).length := by
        simp only [lastReading, List.length_cons, Nat.add_one_ne_zero, if_false]
        split_ifs with h₀
        · rw [h₀]
        · rfl
      exact congrArg (fun t => some (Function.update n p { n p with clients := cs, clock := t })) hclock
    · rw [List.map_cons, queueAll_cons, List.length_map, numbered_encode]
      have hnum := numbered_update (n p) (n p).clients i c
      change numbered (n p) cs = _ at hcs
      rw [hcs]
      change (Send.queueAll pipe msg q A rnd now (is.map Encodable.encode)
        (numbered (n p) (Function.update (n p).clients i c))).1 = _
      rw [hnum]

variable (is) in
theorem run_dequeueActs (hrun : (n p).running = none) : ∃ cs,
    Machine.run (Net.step A) n (dequeueActs p q is) =
        some (Function.update n p { n p with clients := cs }) ∧
      numbered (n p) cs =
        Send.dequeueAll q (is.map Encodable.encode) (numbered (n p) (n p).clients) := by
  induction is generalizing n with
  | nil => exact ⟨(n p).clients, congrArg some (Function.update_eq_self p n).symm, rfl⟩
  | cons i is ih =>
    let c := ((n p).clients i).dequeueMsg q none .msg
    let r : Router KP ι := (n p).setClient i c
    have hself : Function.update n p r p = r := Function.update_self ..
    have hstep : Net.step A n (p, .dequeueMsg i q none .msg) = some (Function.update n p r) := by
      exact Option.map_eq_some_iff.mpr ⟨r, step_idle hrun, rfl⟩
    obtain ⟨cs, hrest, hcs⟩ := ih (n := Function.update n p r) (by rw [hself]; exact hrun)
    rw [hself, Function.update_idem] at hrest
    rw [hself] at hcs
    refine ⟨cs, Machine.run_cons_eq_some.mpr ⟨_, hstep, hrest⟩, ?_⟩
    change numbered (n p) cs = Send.dequeueAll q (is.map Encodable.encode)
      (numbered (n p) (Function.update (n p).clients i c)) at hcs
    rw [hcs, numbered_update, List.map_cons, Send.dequeueAll, Send.dequeueAll, List.foldl_cons,
      numbered_encode]

/-- The end of `send`, or a step that leaves the clients alone, is a run of the routers. -/
theorem exists_run_of_tidies (hpipe : pipe.clients = is.map Encodable.encode)
    (hrun : (n p).running = none) {clients : ℕ → MQTTClient KP}
    (h : clients = numbered (n p) (n p).clients ∨
      clients = Send.dequeueAll q pipe.clients (numbered (n p) (n p).clients)) :
    ∃ as, (∀ x ∈ as, ∀ n : Net P KP ι, Net.Faithful A F p R q n x) ∧
      Machine.run (Net.step A) n as = some (Function.update n p
        { n p with clients := fun i => clients (Encodable.encode i) }) := by
  have hback : ∀ cs, (fun i => numbered (n p) cs (Encodable.encode i)) = cs :=
    fun cs => funext fun i => numbered_encode ..
  obtain rfl | rfl := h
  · refine ⟨[], by simp, ?_⟩
    rw [hback]
    exact congrArg some (Function.update_eq_self p n).symm
  · obtain ⟨cs, hr, hcs⟩ := run_dequeueActs (A := A) (n := n) (q := q) is hrun
    rw [hpipe, ← hcs]
    exact ⟨_, faithful_dequeueActs, by rw [hback]; exact hr⟩

/-- A task waits for the message of `send`, and ends with an acknowledgement when its future is
resolved. -/
def Awaited (pipe : SmartPipe) (msg : PyMsg) (q : String) (clients : ℕ → MQTTClient KP)
    (w : WaitTask) : Prop :=
  Send.Registered pipe msg q clients w ∧
    (w.ended = some .acked → w.appAck ∈ (clients w.client).resolved)

omit [DecidableEq P] [DecidableEq ι] in
theorem Awaited.mono (hadv : Net.Advances A n n') {w : WaitTask}
    (h : Awaited pipe msg q (numbered (n p) (n p).clients) w) :
    Awaited pipe msg q (numbered (n' p) (n' p).clients) w := by
  obtain ⟨⟨x, hx, hrest⟩, hres⟩ := h
  obtain ⟨hqueued, hresolved⟩ := numbered_grows (p := p) hadv w.client
  exact ⟨⟨x, hqueued.subset hx, hrest⟩, fun he => hresolved (hres he)⟩

structure Holds (A : Aio KP) (F : Except PyExc Bytes → Prop) (pipe : SmartPipe) (msg : PyMsg)
    (q : String) (p R : P) (j : Sending P KP ι) : Prop where
  acked : Net.AckedOnly A F p R q j.net
  dest : pipe.destPubHex = A.pkHex (j.net R).kp
  sound : ∀ c ∈ j.call, (view p j c).Sound msg
  awaited : ∀ c ∈ j.call, ∀ w ∈ c.waits,
    Awaited pipe msg q (numbered (j.net p) (j.net p).clients) w

/-- The routers' own steps are faithful. -/
def Trusted (A : Aio KP) (F : Except PyExc Bytes → Prop) (q : String) (p R : P)
    (j : Sending P KP ι) : Act P KP ι → Prop
  | .net x => Net.Faithful A F p R q j.net x
  | _ => True

instance [Fintype P] [Fintype ι] [DecidablePred F] (j : Sending P KP ι) (x : Act P KP ι) :
    Decidable (Trusted A F q p R j x) := by
  cases x <;> unfold Trusted <;> infer_instance

theorem holds_put (hA : A.Lawful) (h : Net.AckedOnly A F p R q n)
    (hdest : pipe.destPubHex = A.pkHex (n R).kp) {as : List (P × Action ι)}
    {s : Send KP} {clock : ℚ} (has : ∀ x ∈ as, ∀ n : Net P KP ι, Net.Faithful A F p R q n x)
    (hr : Machine.run (Net.step A) n as = some (put p j s clock).net) (hs : s.Sound msg)
    (hw : ∀ w ∈ s.waits, Awaited pipe msg q (numbered (n p) (n p).clients) w) :
    Holds A F pipe msg q p R (put p j s clock) := by
  obtain ⟨hacked, hadv⟩ := h.run hA (Machine.meets_of_mem has n) hr
  refine ⟨hacked, by rw [hadv.kp]; exact hdest, ?_, ?_⟩
  · rintro c ⟨rfl⟩
    exact Send.sound_clients _ hs
  · rintro c ⟨rfl⟩ w hw'
    exact (hw w hw').mono hadv

theorem holds_start (hA : A.Lawful) (h : Holds A F pipe msg q p R j)
    (hpipe : pipe.clients = is.map Encodable.encode) (hrun : (j.net p).running = none)
    {rnd : ℕ → ℕ} {now : ℕ → ℚ} (hnow : Rising (j.net p).clock now pipe.clients.length) :
    Holds A F pipe msg q p R
      (put p j (Send.start pipe msg q A rnd now (numbered (j.net p) (j.net p).clients))
        (lastReading (j.net p).clock now pipe.clients.length)) := by
  have hlen : pipe.clients.length = is.length := by rw [hpipe, List.length_map]
  rw [hlen] at hnow ⊢
  -- the first loop takes the routers to a state of their own
  obtain ⟨cs, hr, hcs⟩ := run_queueActs (A := A) (q := q) pipe msg is rnd now hrun hnow
  obtain ⟨hacked, hadv⟩ := h.acked.run hA
    (Machine.meets_of_mem (faithful_queueActs (A := A) (F := F) (R := R) rnd now) j.net) hr
  have hreg := (Send.queueAll_spec (q := q) pipe msg hA rnd now pipe.clients
    (numbered (j.net p) (j.net p).clients)).2
  have hwaits : ∀ w ∈ (Send.queueAll pipe msg q A rnd now pipe.clients
      (numbered (j.net p) (j.net p).clients)).2, w.cancelRequested = false ∧ w.ended = none :=
    Send.queueAll_waits A rnd now pipe.clients _
  have htidy := Send.Tidies.of_start pipe msg q A rnd now (numbered (j.net p) (j.net p).clients)
  rw [← hpipe] at hcs
  rw [← hcs] at hreg htidy
  have hself : Function.update j.net p
      { j.net p with clients := cs, clock := lastReading (j.net p).clock now is.length } p = _ :=
    Function.update_self ..
  obtain ⟨as, has, hend⟩ := exists_run_of_tidies (F := F) (R := R) (A := A) (q := q) hpipe
    (n := Function.update j.net p _) (by rw [hself]; exact hrun) (by rw [hself]; exact htidy.clients)
  rw [hself, Function.update_idem] at hend
  refine holds_put hA hacked (by rw [hadv.kp]; exact h.dest) has hend (Send.sound_start ..)
    fun w' hw' => ?_
  obtain ⟨w, hw, hclient, hack, hended⟩ := htidy.waits w' hw'
  obtain ⟨x, hx, hrest⟩ := hreg w hw
  rw [hself]
  refine ⟨⟨x, by rw [hclient]; exact hx, by rw [hack]; exact hrest⟩, fun he => ?_⟩
  rw [hended, (hwaits w hw).2] at he
  cases he

theorem holds_event (hA : A.Lawful) (h : Holds A F pipe msg q p R j)
    (hpipe : pipe.clients = is.map Encodable.encode) (hrun : (j.net p).running = none)
    {c : SendCall} (hc : j.call = some c) {e : Send.Event KP} (he : Allowed p j c e) {s : Send KP}
    (hs : Send.step pipe msg q (view p j c) e = some s) :
    Holds A F pipe msg q p R (put p j s (j.net p).clock) := by
  have hsound := Send.step_sound _ _ _ (h.sound c hc) hs
  rcases Send.step_cases hs with ⟨i, d, rfl⟩ | htidy | ⟨k, o, w, rfl, hw, rfl⟩
  · exact absurd he id
  · obtain ⟨as, has, hr⟩ := exists_run_of_tidies (F := F) (R := R) (A := A) (q := q) hpipe hrun
      htidy.clients
    refine holds_put hA h.acked h.dest has hr hsound fun w' hw' => ?_
    obtain ⟨w, hw, hclient, hack, hended⟩ := htidy.waits w' hw'
    obtain ⟨hreg, hres⟩ := h.awaited c hc w hw
    unfold Awaited Send.Registered
    rw [hclient, hack, hended]
    exact ⟨hreg, hres⟩
  · obtain ⟨as, has, hr⟩ := exists_run_of_tidies (F := F) (R := R) (A := A) (q := q) hpipe hrun
      (.inl rfl)
    refine holds_put hA h.acked h.dest has hr hsound fun w' hw' => ?_
    rcases List.mem_or_eq_of_mem_set hw' with hw' | rfl
    · exact h.awaited c hc w' hw'
    · obtain ⟨hreg, -⟩ := h.awaited c hc w (List.mem_of_getElem? hw)
      refine ⟨hreg, fun ho => ?_⟩
      obtain rfl : o = .acked := Option.some.inj ho
      exact he w hw

theorem step_holds (hA : A.Lawful) (h : Holds A F pipe msg q p R j)
    (hpipe : pipe.clients = is.map Encodable.encode) {a : Act P KP ι}
    (ha : Trusted A F q p R j a) (hstep : step A pipe msg q p j a = some j') :
    Holds A F pipe msg q p R j' := by
  cases a with
  | net x =>
    obtain ⟨p', a⟩ := x
    obtain ⟨n', hn, rfl⟩ := Option.map_eq_some_iff.mp hstep
    have hadv := h.acked.ackSound.traced.advances hA hn
    refine ⟨h.acked.step hA ha hn, by rw [hadv.kp]; exact h.dest, fun c hc => ?_,
      fun c hc w hw => ?_⟩
    · exact Send.sound_clients _ (h.sound c hc)
    · exact (h.awaited c hc w hw).mono hadv
  | start rnd now =>
    simp only [step] at hstep
    split at hstep
    · cases hstep
    · split_ifs at hstep with hc
      cases hstep
      exact holds_start hA h hpipe hc.1 hc.2
  | event e =>
    simp only [step] at hstep
    split at hstep
    · cases hstep
    · rename_i c hcall
      split_ifs at hstep with hc
      obtain ⟨s, hs, rfl⟩ := Option.map_eq_some_iff.mp hstep
      exact holds_event hA h hpipe hc.1 hcall hc.2 hs

variable (is) in
/-- What `send` returns is true at the other end: it returns the length of a message that is not
empty only when the destination's handler has been called with the message. -/
theorem send_delivers (hA : A.Lawful) {n₀ : Net P KP ι} (h₀ : ∀ p, Router.Fresh (n₀ p))
    (hkeys : Function.Injective fun p => A.pkHex (n₀ p).kp)
    (hh : ∀ i, ((n₀ R).clients i).msgHandlers.toList ≠ [])
    (hpipe : pipe.clients = is.map Encodable.encode) (hdest : pipe.destPubHex = A.pkHex (n₀ R).kp)
    (hF : F (A.hToB q)) {as : List (Act P KP ι)}
    (hm : Machine.Meets (step A pipe msg q p) (Trusted A F q p R) ⟨n₀, none⟩ as)
    (hrun : Machine.run (step A pipe msg q p) ⟨n₀, none⟩ as = some j) {c : SendCall}
    (hc : j.call = some c) {len : ℕ} (hend : c.stage = .ended (.returned len)) (hlen : 0 < len) :
    len = msg.len ∧ ∃ v ∈ (j.net R).log, v.pkt.srcPkHex = A.pkHex (j.net p).kp ∧
      A.toS (A.toB msg) = .ok v.pkt.msg := by
  have h : Holds A F pipe msg q p R j :=
    Machine.run_invariant (fun _ _ _ hI ha hs => step_holds hA hI hpipe ha hs)
      ⟨.of_fresh h₀ hkeys hh, hdest, by simp, by simp⟩ hm hrun
  have hsound := h.sound c hc
  simp only [Send.Sound, view, hend] at hsound
  obtain ⟨rfl, k, hk⟩ | ⟨rfl, -⟩ := hsound.2
  · obtain ⟨w, hw, hacked⟩ := Option.bind_eq_some_iff.mp hk
    obtain ⟨⟨x, hx, hack, hty, hq, hd, rfl⟩, hres⟩ := h.awaited c hc w (List.mem_of_getElem? hw)
    refine ⟨rfl, ?_⟩
    rcases numbered_cases (j.net p) (j.net p).clients w.client with ⟨i, -, hi⟩ | hi
    · rw [hi] at hx hres
      have hacked' := h.acked.acked i x hx hty hq (by rw [hack]; exact hres hacked)
      exact h.acked.ackSound.acked p i x hx hacked' hty (by rw [hd, h.dest])
        (by rw [hq]; exact hF)
    · rw [hi] at hx
      cases hx
  · cases hlen

open Concrete

/-- A message on its way to the second party and its ack on the way back, with `send` around it. -/
def sendsHello : List (Act Bool ℕ Unit) :=
  [.start (fun _ => 0) (fun _ => 100)] ++
    List.replicate 4 (.net (true, .dispatch () 0)) ++
    [.net (false, .recv () (concrete.pkHex 2) (signedBy 1 100 (queueId 'a') 0 .msg "hello") false)] ++
    List.replicate 4 (.net (false, .resume 0 (.ok 0))) ++
    List.replicate 5 (.net (false, .dispatch () 0)) ++
    [.net (true, .recv () (concrete.pkHex 1) (signedBy 2 100 (queueId 'a') 0 .msgack "ack") false),
      .net (true, .resume 0 (.ok 0)),
      .event (.taskEnds 0 .acked), .event (.wake [0]), .event .gathered]

theorem send_delivers_hello :
    ∃ j, Machine.run (step concrete ⟨[0], concrete.pkHex 2⟩ (.str "hello") (queueId 'a') true)
        ⟨Net.pair, none⟩ sendsHello = some j ∧
      ∃ v ∈ (j.net false).log, v.pkt.srcPkHex = concrete.pkHex (j.net true).kp ∧
        concrete.toS (concrete.toB (.str "hello")) = .ok v.pkt.msg := by
  obtain ⟨j, hj, hm, hd⟩ := Machine.exists_runMeeting_of_any
    (step concrete ⟨[0], concrete.pkHex 2⟩ (.str "hello") (queueId 'a') true)
    (Trusted concrete (fun _ => True) (queueId 'a') true false) ⟨Net.pair, none⟩ sendsHello
    (fun j => j.call.any fun c : SendCall => decide (c.stage = SendStage.ended (.returned 5)))
    (by decide +kernel)
  obtain ⟨c, hc, hend⟩ := (Option.any_eq_true _ _).mp hd
  exact ⟨j, hj, (send_delivers [()] concrete_lawful Net.fresh_pair (by decide +kernel)
    (by decide) rfl rfl trivial hm hj hc (of_decide_eq_true hend) (by decide)).2⟩

end Sending

end Sidewire
