import Sidewire.Router.Turns

/-! # What a step can do

The inversion lemmas of the event loop. A turn of a task changes its own
position, its client's tables, the shared table and the call log; every other
action touches one client. Invariants are derived from these lemmas alone.
-/

namespace Sidewire

namespace Router

open Exec MQTTClient

variable {KP ι : Type} [DecidableEq ι] {A : Aio KP} {r r' : Router KP ι} {k rnd : ℕ}
  {res : Except PyExc ℕ}
  {t : Task ι} {i : ι} {a : Action ι} {pkt : AppPacket} {todo : List ℕ} {size : ℕ} {s : ℤ}
  {signed : Bytes} {pc : TaskPc} {c : MQTTClient KP} {recv : PyDict String ℚ}
  {calls : List (ℕ × AppPacket)}

def afterTurn (r : Router KP ι) (k : ℕ) (t : Task ι) (pc : TaskPc) (c : MQTTClient KP)
    (recv : PyDict String ℚ) (calls : List (ℕ × AppPacket)) : Router KP ι :=
  { r with
    clients := Function.update r.clients t.client c
    recvMsgIds := recv
    tasks := r.tasks.modify k fun t => { t with pc }
    log := r.log ++ calls.map fun h => ⟨k, h.1, t.client, h.2, r.clock⟩ }

theorem setClient_setPc_eq_afterTurn (r : Router KP ι) (k : ℕ) (t : Task ι) (c : MQTTClient KP)
    (pc : TaskPc) :
    (r.setClient t.client c).setPc k pc = r.afterTurn k t pc c r.recvMsgIds [] := by
  simp [setClient, setPc, afterTurn]

theorem setPc_eq_afterTurn (r : Router KP ι) (k : ℕ) (t : Task ι) (pc : TaskPc) :
    r.setPc k pc = r.afterTurn k t pc (r.clients t.client) r.recvMsgIds [] := by
  simp [setPc, afterTurn]

theorem ackBegin_spec (r : Router KP ι) (k : ℕ) (t : Task ι) (pkt : AppPacket) :
    ∃ pc c, r.ackBegin A k t.client pkt = r.afterTurn k t pc c r.recvMsgIds [] ∧
      AckStarts A r.clock pkt (r.clients t.client) pc c := by
  unfold ackBegin catchLogged
  obtain ⟨e, d, h, hw, he⟩ | ⟨signed, d, h, hs, hw, hq⟩ := queueMsgAsyncBegin_spec (A := A) r.clock
    (.str "ack") pkt.srcPkHex pkt.queueIdHex .msgack pkt.seqNo (r.clients t.client)
  · rw [h]
    simp only
    split_ifs
    · exact ⟨_, d, setClient_setPc_eq_afterTurn .., .failed hw (.inl rfl) he⟩
    · exact ⟨_, d, setClient_setPc_eq_afterTurn .., .failed hw (.inr rfl) he⟩
  · rw [h]
    exact ⟨_, d, setClient_setPc_eq_afterTurn .., .signing hw hs hq⟩

theorem call_eq_afterTurn (r : Router KP ι) (k : ℕ) (t : Task ι) (pkt : AppPacket) (x : ℕ)
    (pc : TaskPc) : { r.setPc k pc with log := r.log ++ [⟨k, x, t.client, pkt, r.clock⟩] } =
      r.afterTurn k t pc (r.clients t.client) r.recvMsgIds [(x, pkt)] := by
  simp [setPc, afterTurn]

theorem deliver_spec (r : Router KP ι) (k rnd : ℕ) (t : Task ι) (ht : t.pc = .handling pkt todo size) :
    ∃ pc c calls, r.deliver A k t.client pkt todo size = r.afterTurn k t pc c r.recvMsgIds calls ∧
      Turn A r t (.ok rnd) pc c r.recvMsgIds calls := by
  unfold deliver
  split_ifs with hs
  · exact ⟨_, _, _, setPc_eq_afterTurn .., .changed ht hs _⟩
  · cases todo with
    | nil =>
      obtain ⟨pc, c, h, ha⟩ := ackBegin_spec (A := A) r k t pkt
      exact ⟨pc, c, [], h, .last ht ha⟩
    | cons x todo => exact ⟨_, _, _, call_eq_afterTurn .., .next ht (not_not.mp hs)⟩

theorem dedup_spec (r : Router KP ι) (k rnd : ℕ) (t : Task ι) (ht : t.pc = .hashing pkt) :
    ∃ pc c recv calls, r.dedup A k t.client pkt = r.afterTurn k t pc c recv calls ∧
      Turn A r t (.ok rnd) pc c recv calls := by
  unfold dedup
  split_ifs with hs
  · obtain ⟨pc, c, h, ha⟩ := ackBegin_spec (A := A) r k t pkt
    exact ⟨pc, c, _, [], h, .seen ht hs ha⟩
  · have hn : r.recvMsgIds.contains (A.msgHash pkt.msg) = false := Bool.eq_false_of_not_eq_true hs
    unfold deliver
    rw [if_neg (not_not.mpr rfl)]
    cases hl : (r.clients t.client).msgHandlers.toList with
    | nil =>
      obtain ⟨pc, c, h, ha⟩ := ackBegin_spec (A := A)
        { r with recvMsgIds := r.recvMsgIds.set (A.msgHash pkt.msg) r.clock } k t pkt
      exact ⟨pc, c, _, [], h, .unheard ht hn hl ha⟩
    | cons x todo =>
      exact ⟨_, _, _, _, call_eq_afterTurn
        { r with recvMsgIds := r.recvMsgIds.set (A.msgHash pkt.msg) r.clock } k t pkt x _,
        .first ht hn hl⟩

theorem route_spec (r : Router KP ι) (k rnd : ℕ) (t : Task ι) (ht : t.pc = .verifying)
    (hp : AppPacket.unpack A t.payload = .ok (some pkt)) :
    ∃ pc c, r.route A k t.client rnd pkt = r.afterTurn k t pc c r.recvMsgIds [] ∧
      Turn A r t (.ok rnd) pc c r.recvMsgIds [] := by
  unfold route
  split_ifs with hm ho hm' hm''
  · exact ⟨_, _, setPc_eq_afterTurn .., .drop ht _⟩
  · have ho : (r.clients t.client).tooOld r.clock pkt = false := Bool.eq_false_of_not_eq_true ho
    unfold processAppMsg
    obtain ⟨hn, h⟩ | ⟨m, hs, ⟨d, h⟩ | ⟨e, d, h⟩⟩ :=
      processAppMsgBegin_spec (A := A) pkt (r.clients t.client)
    · rw [h]
      exact ⟨_, _, setClient_setPc_eq_afterTurn .., .fresh ht hp hm ho hn⟩
    · have ht' : Turn A r t (.ok rnd) .sending _ _ _ := .again ht hp hm ho
        (Option.isSome_iff_exists.mpr ⟨m, hs⟩) (.inl rfl)
      rw [h] at ht' ⊢
      exact ⟨_, _, setClient_setPc_eq_afterTurn .., ht'⟩
    · have ht' : Turn A r t (.ok rnd) (.raised e) _ _ _ := .again ht hp hm ho
        (Option.isSome_iff_exists.mpr ⟨m, hs⟩) (.inr ⟨e, rfl⟩)
      rw [h] at ht' ⊢
      exact ⟨_, _, setClient_setPc_eq_afterTurn .., ht'⟩
  · exact ⟨_, _, setClient_setPc_eq_afterTurn .., .ack ht hp hm'⟩
  · unfold processAppProbe
    have ht' : ∀ pc, (pc = .done ∨ ∃ e, pc = .raised e) → Turn A r t (.ok rnd) pc _ _ _ :=
      fun pc hpc => .probe ht hp hm'' hpc
    cases h : MQTTClient.processAppProbe A rnd r.clock pkt (.ok ()) (r.clients t.client) with
    | ok u d =>
      rw [h] at ht'
      exact ⟨_, _, setClient_setPc_eq_afterTurn .., ht' _ (.inl rfl)⟩
    | error e d =>
      rw [h] at ht'
      exact ⟨_, _, setClient_setPc_eq_afterTurn .., ht' _ (.inr ⟨e, rfl⟩)⟩
  · exact ⟨_, _, setPc_eq_afterTurn .., .drop ht _⟩

theorem ackEnd_spec (r : Router KP ι) (k rnd : ℕ) (t : Task ι) (ht : t.pc = .signing pkt s signed) :
    ∃ pc c, r.ackEnd A k t.client rnd pkt s signed = r.afterTurn k t pc c r.recvMsgIds [] ∧
      Turn A r t (.ok rnd) pc c r.recvMsgIds [] := by
  unfold ackEnd catchLogged
  have ht' : ∀ pc, (pc = .done ∨ ∃ e, pc = .raised e) → Turn A r t (.ok rnd) pc _ _ _ :=
    fun pc hpc => .signed ht hpc
  cases h : queueMsgAsyncEnd A rnd r.clock (.str "ack") pkt.srcPkHex pkt.queueIdHex .msgack s signed
      (r.clients t.client) with
  | ok u d =>
    rw [h] at ht'
    exact ⟨_, _, setClient_setPc_eq_afterTurn .., ht' _ (.inl rfl)⟩
  | error e d =>
    rw [h] at ht'
    simp only
    split_ifs
    · exact ⟨_, _, setClient_setPc_eq_afterTurn .., ht' _ (.inl rfl)⟩
    · exact ⟨_, _, setClient_setPc_eq_afterTurn .., ht' _ (.inr ⟨e, rfl⟩)⟩

/-- A task that is resumed takes one turn. -/
theorem resume_spec (h : r.resume A k res = some r') :
    ∃ t pc c recv calls, r.tasks[k]? = some t ∧ Turn A r t res pc c recv calls ∧
      r' = r.afterTurn k t pc c recv calls := by
  unfold resume at h
  cases ht : r.tasks[k]? with
  | none => rw [ht] at h; cases h
  | some t =>
    obtain ⟨i, topic, payload, pc⟩ := t
    rw [ht] at h
    have hs := fun pc => setPc_eq_afterTurn r k ⟨i, topic, payload, pc⟩
    cases res with
    | error e =>
      obtain ⟨pc', hf, rfl⟩ := Option.map_eq_some_iff.mp h
      exact ⟨_, _, _, _, _, rfl, .failed hf, hs pc _⟩
    | ok rnd =>
    cases pc with
    | puback =>
      cases h
      exact ⟨_, _, _, _, _, rfl, .topic rfl, hs _ _⟩
    | verifying =>
      simp only at h
      cases hp : AppPacket.unpack A payload with
      | error e =>
        rw [hp] at h
        cases h
        exact ⟨_, _, _, _, _, rfl, .drop rfl _, hs .verifying _⟩
      | ok o =>
        cases o with
        | none =>
          rw [hp] at h
          cases h
          exact ⟨_, _, _, _, _, rfl, .drop rfl _, hs .verifying _⟩
        | some pkt =>
          rw [hp] at h
          cases h
          obtain ⟨pc, c, h, ht⟩ := route_spec r k rnd
            ⟨i, topic, payload, .verifying⟩ rfl hp
          exact ⟨_, pc, c, _, _, rfl, ht, h⟩
    | hashing pkt =>
      cases h
      obtain ⟨pc, c, recv, calls, h, ht⟩ := dedup_spec (A := A) r k rnd
        (⟨i, topic, payload, .hashing pkt⟩ : Task ι) rfl
      exact ⟨_, pc, c, recv, calls, rfl, ht, h⟩
    | handling pkt todo size =>
      cases h
      obtain ⟨pc, c, calls, h, ht⟩ := deliver_spec (A := A) r k rnd
        (⟨i, topic, payload, .handling pkt todo size⟩ : Task ι) rfl
      exact ⟨_, pc, c, _, calls, rfl, ht, h⟩
    | signing pkt s signed =>
      cases h
      obtain ⟨pc, c, h, ht⟩ := ackEnd_spec (A := A) r k rnd
        (⟨i, topic, payload, .signing pkt s signed⟩ : Task ι) rfl
      exact ⟨_, pc, c, _, _, rfl, ht, h⟩
    | sending =>
      cases h
      exact ⟨_, _, _, _, _, rfl, .sent rfl, hs .sending _⟩
    | dropped e => cases h
    | done => cases h
    | raised e => cases h

def KeepsTime (r : Router KP ι) (dispatchers : ι → Dispatcher) : Prop :=
  ∀ j n, (dispatchers j).pc.startedAt = some n → (r.dispatchers j).pc.startedAt = some n ∨ n = r.clock

inductive Move (A : Aio KP) (r : Router KP ι) : Action ι → Router KP ι → Prop
  | tick {t : ℚ} (h : r.clock ≤ t) (ht : pyInt t < 256 ^ timestampLen) :
      Move A r (.tick t) { r with clock := t }
  | recv {i : ι} {topic : String} {payload : Bytes} {withId : Bool} {pc : TaskPc}
      (hpc : pc = .puback ∨ (∃ e, pc = .dropped e) ∨ pc = r.checkTopic A i topic) :
      Move A r (.recv i topic payload withId)
        { r with tasks := r.tasks ++ [⟨i, topic, payload, pc⟩] }
  | turn {k : ℕ} {res : Except PyExc ℕ} {t : Task ι} {pc : TaskPc} {c : MQTTClient KP}
      {recv : PyDict String ℚ} {calls : List (ℕ × AppPacket)} (hk : r.tasks[k]? = some t)
      (h : Turn A r t res pc c recv calls) :
      Move A r (.resume k res) (r.afterTurn k t pc c recv calls)
  | client {a : Action ι} {i : ι} {c : MQTTClient KP} (dispatchers : ι → Dispatcher)
      (running : Option ι) (hd : KeepsTime r dispatchers)
      (h : Writes A (Cause A r i a) (r.clients i) c) :
      Move A r a { r with clients := Function.update r.clients i c, dispatchers, running }
  | prune {i : ι} {draw now : ℚ} {c : MQTTClient KP} (dispatchers : ι → Dispatcher)
      (running : Option ι) (hd : KeepsTime r dispatchers)
      (hpc : (r.dispatchers i).pc = .sleeping now ∨ (r.dispatchers i).pc = .pinging now)
      (h : SameBook (r.clients i) c) :
      Move A r (.dispatch i draw)
        { r with
          clients := Function.update r.clients i c
          recvMsgIds := pruneTable ((r.clients i).republishDuration * 2) now r.recvMsgIds
          dispatchers, running }

theorem Move.unwritten {dispatchers : ι → Dispatcher} (running : Option ι) (i : ι)
    (hd : KeepsTime r dispatchers) : Move A r a { r with dispatchers, running } := by
  have h := Move.client (A := A) (r := r) (a := a) (i := i) dispatchers running hd (.refl _)
  rwa [Function.update_eq_self] at h

omit [DecidableEq ι] in
theorem keepsTime_self (r : Router KP ι) : KeepsTime r r.dispatchers := fun _ _ h => .inl h

theorem KeepsTime.update {ds : ι → Dispatcher} (hds : KeepsTime r ds) {d : Dispatcher}
    (h : ∀ n, d.pc.startedAt = some n →
      (r.dispatchers i).pc.startedAt = some n ∨ n = r.clock) :
    KeepsTime r (Function.update ds i d) := by
  intro j n hn
  by_cases hj : j = i
  · subst hj
    rw [Function.update_self] at hn
    exact h n hn
  · rw [Function.update_of_ne hj] at hn
    exact hds j n hn

theorem call_eq {α : Type} (r : Router KP ι) (i : ι) (x : ClientM KP α) :
    r.call i x = r.setClient i (final (x (r.clients i))) := by
  unfold call
  cases x (r.clients i) <;> rfl

theorem startedAt_loopHead (b : Bool) (n : ℚ) :
    (if b then DispatchPc.finished .closed else .reconnecting).startedAt ≠ some n := by
  cases b <;> exact nofun

theorem dispatch_spec {draw : ℚ} (h : r.dispatch A i draw = some r') :
    Move A r (.dispatch i draw) r' := by
  unfold dispatch at h
  cases hpc : (r.dispatchers i).pc with
  | reconnecting =>
    rw [hpc] at h
    simp only at h
    split_ifs at h
    cases h
    exact .unwritten _ i ((keepsTime_self r).update fun n hn => .inr (Option.some.inj hn).symm)
  | walking now g =>
    rw [hpc] at h
    simp only at h
    cases hw : walkStep A (r.dispatchers i) now draw g (r.clients i) with
    | none => rw [hw] at h; cases h
    | some x =>
      rw [hw] at h
      cases h
      refine .client _ _ ((keepsTime_self r).update fun n hn => .inl ?_) (writes_walkStep hw)
      rw [hpc, startedAt_walkStep hw hn]
      rfl
  | publishing now g =>
    rw [hpc] at h
    cases h
    exact .unwritten _ i ((keepsTime_self r).update fun n hn => .inl (by rw [hpc]; exact hn))
  | sleeping now =>
    rw [hpc] at h
    cases h
    have hping : KeepsTime r (Function.update r.dispatchers i
        { r.dispatchers i with lastPing := r.clock }) :=
      (keepsTime_self r).update fun n hn => .inl hn
    unfold keepAlive
    simp only
    split_ifs
    · exact .unwritten _ i ((keepsTime_self r).update fun n hn => absurd hn (startedAt_loopHead _ n))
    · exact .unwritten _ i (hping.update fun n hn => .inl (by rw [hpc]; exact hn))
    · exact .prune _ _ (hping.update fun n hn => absurd hn (startedAt_loopHead _ n)) (.inl hpc)
        ⟨rfl, rfl, rfl, rfl, rfl, rfl, le_rfl, rfl, rfl, rfl⟩
  | pinging now =>
    rw [hpc] at h
    cases h
    exact .prune _ _
      ((keepsTime_self r).update fun n hn => absurd hn (startedAt_loopHead _ n)) (.inr hpc)
      ⟨rfl, rfl, rfl, rfl, rfl, rfl, le_rfl, rfl, rfl, rfl⟩
  | finished e => rw [hpc] at h; cases h

theorem act_spec (hA : A.Lawful) (h : r.act A a = some r') : Move A r a r' := by
  have hquiet : ∀ {a i c}, SameBook (r.clients i) c → Move A r a (r.setClient i c) :=
    fun hc => .client r.dispatchers r.running (keepsTime_self r) (.quiet hc)
  cases a with
  | tick t =>
    simp only [act] at h
    split_ifs at h with ht
    cases h
    exact .tick ht.1 ht.2
  | recv i topic payload withId =>
    cases h
    unfold handlePublish
    refine .recv ?_
    split_ifs
    · exact .inr (.inl ⟨_, rfl⟩)
    · exact .inl rfl
    · exact .inr (.inr rfl)
  | resume k res =>
    obtain ⟨t, pc, c, recv, calls, hk, ht, rfl⟩ := resume_spec h
    exact .turn hk ht
  | queueMsg i rnd msg dest q t seqNo =>
    cases h
    rw [call_eq]
    exact .client _ _ (keepsTime_self r) (writes_queueMsg hA fun hn out ack => .queued hn)
  | dequeueMsg i q seqNo t =>
    cases h
    refine .client _ _ (keepsTime_self r) (writes_dequeueMsg (fun hq => ?_) fun s m hq he => ?_)
    · subst hq; exact .dequeued
    · subst hq; exact .disabled he
  | sendProbe i rnd dest q =>
    cases h
    rw [call_eq]
    exact .client _ _ (keepsTime_self r) (writes_sendProbe hA fun out ack => .probed)
  | addMsgHandler i h =>
    cases h
    exact .client _ _ (keepsTime_self r) (.addHandler .handler)
  | brokerAck i t pid =>
    cases h
    exact hquiet ⟨rfl, rfl, rfl, rfl, rfl, rfl, le_rfl, rfl, rfl, rfl⟩
  | dispatch i draw => exact dispatch_spec h
  | connectionLost i =>
    cases h
    exact hquiet ⟨rfl, rfl, rfl, rfl, rfl, rfl, le_rfl, rfl, rfl, rfl⟩
  | reconnected i =>
    simp only [act] at h
    split_ifs at h
    cases h
    exact hquiet ⟨rfl, rfl, rfl, rfl, rfl, rfl, le_rfl, rfl, rfl, rfl⟩
  | close i =>
    cases h
    exact hquiet ⟨rfl, rfl, rfl, rfl, rfl, rfl, le_rfl, rfl, rfl, rfl⟩
  | cancelDispatcher i =>
    simp only [act] at h
    split at h
    · cases h
    · cases h
      exact .unwritten _ i ((keepsTime_self r).update fun n hn => nomatch hn)
  | dropPipe i =>
    cases h
    exact hquiet ⟨rfl, rfl, rfl, rfl, rfl, rfl, le_rfl, rfl, rfl, rfl⟩

theorem act_of_step (h : r.step A a = some r') : r.act A a = some r' := by
  unfold step at h
  split at h
  · exact h
  · split at h
    · split_ifs at h
      exact h
    · cases h

theorem resume_of_step (h : r.step A (.resume k res) = some r') : r.resume A k res = some r' :=
  act_of_step h

theorem step_spec (hA : A.Lawful) (h : r.step A a = some r') : Move A r a r' :=
  act_spec hA (act_of_step h)

theorem writes_update {f : ι → MQTTClient KP} {j : ι} {P : ι → Write → Prop}
    (h : Writes A (P i) (f i) c) : Writes A (P j) (f j) (Function.update f i c j) := by
  by_cases hj : j = i
  · subst hj
    rwa [Function.update_self]
  · rw [Function.update_of_ne hj]
    exact .refl _

theorem Move.writes (hA : A.Lawful) (hs : Sound A r) (h : Move A r a r') (j : ι) :
    Writes A (Cause A r j a) (r.clients j) (r'.clients j) := by
  cases h with
  | tick => exact .refl _
  | recv => exact .refl _
  | turn hk h => exact writes_update (P := fun j => Cause A r j _) (h.writes hA hs hk)
  | client dispatchers running hd h => exact writes_update (P := fun j => Cause A r j a) h
  | prune dispatchers running hd hpc h =>
    exact writes_update (P := fun j => Cause A r j _) (.quiet h)

theorem getElem?_afterTurn (hk : r.tasks[k]? = some t) (j : ℕ) :
    (r.afterTurn k t pc c recv calls).tasks[j]? =
      if j = k then some { t with pc } else r.tasks[j]? := by
  simp only [afterTurn, List.getElem?_modify]
  by_cases hj : j = k
  · subst hj
    simp [hk]
  · simp [hj, Ne.symm hj]

theorem getElem?_concat_cases {α : Type} {l : List α} {x y : α} {j : ℕ}
    (h : (l ++ [x])[j]? = some y) : l[j]? = some y ∨ y = x := by
  rw [List.getElem?_append] at h
  split_ifs at h
  · exact .inl h
  · exact .inr (by simpa using List.mem_of_getElem? h)

theorem mem_tasks_afterTurn (hk : r.tasks[k]? = some t) {t' : Task ι}
    (h : t' ∈ (r.afterTurn k t pc c recv calls).tasks) : t' ∈ r.tasks ∨ t' = { t with pc } := by
  obtain ⟨j, hj⟩ := List.mem_iff_getElem?.mp h
  rw [getElem?_afterTurn hk] at hj
  split_ifs at hj
  · exact .inr (Option.some.inj hj).symm
  · exact .inl (List.mem_of_getElem? hj)

theorem Move.tasks_kept (h : Move A r a r') {t : Task ι} (ht : t ∈ r.tasks) :
    ∃ t' ∈ r'.tasks, t'.client = t.client ∧ t'.topic = t.topic ∧ t'.payload = t.payload := by
  cases h with
  | tick | client | prune => exact ⟨t, ht, rfl, rfl, rfl⟩
  | recv => exact ⟨t, List.mem_append_left _ ht, rfl, rfl, rfl⟩
  | @turn k res u pc c recv calls hk h =>
    obtain ⟨j, hj⟩ := List.mem_iff_getElem?.mp ht
    have hj' : (r.afterTurn k u pc c recv calls).tasks[j]? = _ := getElem?_afterTurn hk j
    split_ifs at hj' with he
    · subst he
      rw [hk] at hj
      cases hj
      exact ⟨_, List.mem_of_getElem? hj', rfl, rfl, rfl⟩
    · exact ⟨t, List.mem_of_getElem? (hj'.trans hj), rfl, rfl, rfl⟩

theorem Move.tasks_cases (h : Move A r a r') {t : Task ι} (ht : t ∈ r'.tasks) :
    (∃ u ∈ r.tasks, u.client = t.client ∧ u.topic = t.topic ∧ u.payload = t.payload) ∨
      ∃ withId, a = .recv t.client t.topic t.payload withId := by
  cases h with
  | tick | client | prune => exact .inl ⟨t, ht, rfl, rfl, rfl⟩
  | recv =>
    rcases List.mem_append.mp ht with ht | ht
    · exact .inl ⟨t, ht, rfl, rfl, rfl⟩
    · rw [List.mem_singleton.mp ht]
      exact .inr ⟨_, rfl⟩
  | turn hk h =>
    obtain ht | rfl := mem_tasks_afterTurn hk ht
    · exact .inl ⟨t, ht, rfl, rfl, rfl⟩
    · exact .inl ⟨_, List.mem_of_getElem? hk, rfl, rfl, rfl⟩

theorem Move.kp (h : Move A r a r') : r'.kp = r.kp := by cases h <;> rfl

theorem Move.log (h : Move A r a r') : r.log <+: r'.log := by
  cases h with
  | turn => exact List.prefix_append _ _
  | _ => exact List.prefix_rfl

theorem Move.sound (hA : A.Lawful) (hs : Sound A r) (h : Move A r a r') : Sound A r' := by
  have hw := h.writes hA hs
  have hkp : r'.kp = r.kp := by cases h <;> rfl
  have htasks : ∀ t ∈ r'.tasks, t.pc.Holds A t.payload ∧ (t.pc.addressed = true →
      A.hToB t.topic = .ok (A.compactPublicKey r.kp)) := by
    have hold := fun t ht => And.intro (hs.holds t ht) (hs.addressed t ht)
    cases h with
    | tick => exact hold
    | @recv i topic payload withId pc hpc =>
      intro t ht
      rcases List.mem_append.mp ht with ht | ht
      · exact hold t ht
      · obtain rfl := List.mem_singleton.mp ht
        obtain rfl | ⟨e, rfl⟩ | rfl := hpc
        · exact ⟨trivial, fun h => nomatch h⟩
        · exact ⟨trivial, fun h => nomatch h⟩
        · refine ⟨?_, fun h => hs.kp i ▸ checkTopic_addressed h⟩
          change TaskPc.Holds A payload (r.checkTopic A i topic)
          unfold checkTopic
          split
          · trivial
          · split_ifs <;> trivial
    | @turn k res t pc c recv calls hk h =>
      intro t' ht'
      obtain ht' | rfl := mem_tasks_afterTurn hk ht'
      · exact hold t' ht'
      · obtain ⟨h₁, h₂⟩ := hold t (List.mem_of_getElem? hk)
        have h₃ := h.holds h₁
        exact ⟨h₃, fun hp => (h.addressed hp).elim h₂ fun h₄ => hs.kp t.client ▸ h₄⟩
    | client => exact hold
    | prune => exact hold
  exact
    { kp := fun i => (hw i).grows.kp.trans ((hs.kp i).trans hkp.symm)
      tracked := fun i => (hw i).tracked (hs.tracked i)
      holds := fun t ht => (htasks t ht).1
      addressed := fun t ht hp => hkp ▸ (htasks t ht).2 hp }

theorem step_sound (hA : A.Lawful) (hs : Sound A r) (h : r.step A a = some r') : Sound A r' :=
  (step_spec hA h).sound hA hs

theorem step_writes (hA : A.Lawful) (hs : Sound A r) (h : r.step A a = some r') (i : ι) :
    Writes A (Cause A r i a) (r.clients i) (r'.clients i) :=
  (step_spec hA h).writes hA hs i

end Router

end Sidewire
