import Sidewire.Mqtt.Concrete
import Sidewire.Router.Steps

/-! # Replayed messages

A message id is kept for twice the republish duration after the message was
first delivered, and the age check is meant to refuse a message from then on.
The two clocks do not quite meet: the age check compares whole seconds and the
sender's timestamp, the table the exact time of arrival. Delivery is at most
once wherever the deduplication check of a delivered packet comes in time.
-/

namespace Sidewire

namespace Router

open MQTTClient

variable {KP ι : Type} {A : Aio KP} {r r' : Router KP ι} {a : Action ι} {t : Task ι} {k : ℕ}
  {res : Except PyExc ℕ} {pc : TaskPc} {c : MQTTClient KP} {recv : PyDict String ℚ}
  {calls : List (ℕ × AppPacket)} {D : ℚ}

def deliveries (r : Router KP ι) (pkt : AppPacket) (h : ℕ) : ℕ :=
  r.log.countP fun v => v.pkt = pkt ∧ v.handler = h

def calledBy (r : Router KP ι) (k : ℕ) : List ℕ :=
  (r.log.filter fun v => v.task = k).map Invocation.handler

/-- A packet that was delivered before comes to the deduplication check while its id is still in
the table, or not later than twice the republish duration after it was delivered. -/
def InTime (A : Aio KP) (D : ℚ) (r : Router KP ι) (a : Action ι) : Prop :=
  ∀ k ∈ a.resumed, ∀ pkt ∈ r.checking k, r.recvMsgIds.contains (A.msgHash pkt.msg) = false →
    ∀ v ∈ r.log, v.pkt = pkt → r.clock - v.time ≤ 2 * D

instance : Decidable (InTime A D r a) :=
  inferInstanceAs (Decidable (∀ k ∈ a.resumed, _))

def Remembered (A : Aio KP) (D : ℚ) (r : Router KP ι) (pkt : AppPacket) : Prop :=
  ∃ v ∈ r.log, v.pkt = pkt ∧
    ((∃ st, r.recvMsgIds.get? (A.msgHash pkt.msg) = some st ∧ v.time ≤ st) ∨
      v.time + 2 * D < r.clock)

structure DeliveredOnce (A : Aio KP) (D : ℚ) (r : Router KP ι) : Prop where
  sound : Sound A r
  duration : ∀ i, (r.clients i).republishDuration = D
  started : ∀ i n, (r.dispatchers i).pc.startedAt = some n → n ≤ r.clock
  remembered : ∀ v ∈ r.log, Remembered A D r v.pkt
  oneTask : ∀ v ∈ r.log, ∀ w ∈ r.log, v.pkt = w.pkt → v.task = w.task
  caller : ∀ v ∈ r.log, ∃ t, r.tasks[v.task]? = some t ∧ t.pc.early = false
  called : ∀ k t, r.tasks[k]? = some t → (r.calledBy k ++ t.pc.todo).Nodup
  calling : ∀ k t pkt todo size, r.tasks[k]? = some t → t.pc = .handling pkt todo size →
    ∃ v ∈ r.log, v.task = k ∧ v.pkt = pkt

theorem Fresh.deliveredOnce (h : Fresh r) (hD : ∀ i, (r.clients i).republishDuration = D) :
    DeliveredOnce A D r where
  sound := h.sound
  duration := hD
  started i n hn := by rw [h.dispatchers] at hn; cases hn
  remembered v hv := by rw [h.log] at hv; cases hv
  oneTask v hv := by rw [h.log] at hv; cases hv
  caller v hv := by rw [h.log] at hv; cases hv
  called k t hk := by rw [h.tasks] at hk; cases hk
  calling k t pkt todo size hk := by rw [h.tasks] at hk; cases hk

theorem DeliveredOnce.deliveries_le_one (h : DeliveredOnce A D r) (pkt : AppPacket) (x : ℕ) :
    r.deliveries pkt x ≤ 1 := by
  by_cases hv : ∃ v ∈ r.log, v.pkt = pkt
  · obtain ⟨v, hv, rfl⟩ := hv
    obtain ⟨t, ht, -⟩ := h.caller v hv
    have hnodup : (r.calledBy v.task).Nodup := (h.called v.task t ht).of_append_left
    have hle : r.deliveries v.pkt x ≤ (r.calledBy v.task).count x := by
      rw [deliveries, calledBy, List.count, List.countP_map, List.countP_filter]
      refine List.countP_mono_left fun w hw hp => ?_
      simp only [decide_eq_true_eq] at hp
      simp [hp.2, h.oneTask w hw v hv hp.1]
    exact hle.trans (List.nodup_iff_count_le_one.mp hnodup x)
  · rw [deliveries, List.countP_eq_zero.mpr]
    · exact Nat.zero_le 1
    · intro v hv' hp
      simp only [decide_eq_true_eq] at hp
      exact hv ⟨v, hv', hp.1⟩

variable [DecidableEq ι]

theorem calledBy_afterTurn (j : ℕ) : (r.afterTurn k t pc c recv calls).calledBy j =
    r.calledBy j ++ if j = k then calls.map Prod.fst else [] := by
  simp only [calledBy, afterTurn, List.filter_append, List.map_append, List.filter_map,
    List.map_map]
  split_ifs with hj
  · subst hj
    have : calls.filter ((fun v : Invocation ι => decide (v.task = j)) ∘
        fun h => ⟨j, h.1, t.client, h.2, r.clock⟩) = calls := by simp
    rw [this]
    rfl
  · have : calls.filter ((fun v : Invocation ι => decide (v.task = j)) ∘
        fun h => ⟨k, h.1, t.client, h.2, r.clock⟩) = [] := by
      simp [Ne.symm hj]
    rw [this]
    rfl

omit [DecidableEq ι] in
theorem pruneTable_get? {ttl now : ℚ} {ids : PyDict String ℚ} {id : String} {st : ℚ}
    (h : ids.get? id = some st) :
    (pruneTable ttl now ids).get? id = some st ∨ ttl < now - st := by
  by_cases hl : ttl < now - st
  · exact .inr hl
  · exact .inl (by rw [pruneTable, PyDict.get?_filter, h]; simp [Option.filter, hl])

section Step

variable (h : DeliveredOnce A D r)

include h

omit [DecidableEq ι] in
theorem DeliveredOnce.not_delivered (hk : r.tasks[k]? = some t) {pkt : AppPacket}
    (hi : InTime A D r (.resume k res)) (hpc : t.pc = .hashing pkt)
    (hn : r.recvMsgIds.contains (A.msgHash pkt.msg) = false) : ∀ v ∈ r.log, v.pkt ≠ pkt := by
  rintro v hv rfl
  obtain ⟨w, hw, hwp, ⟨st, hst, -⟩ | hlate⟩ := h.remembered v hv
  · rw [PyDict.contains, hst] at hn
    cases hn
  · have hc : r.checking k = some v.pkt := by simp only [checking, hk, hpc]
    have := hi k rfl v.pkt hc hn w hw hwp
    linarith

theorem DeliveredOnce.remembered_turn (hk : r.tasks[k]? = some t)
    (hT : Turn A r t res pc c recv calls) {pkt : AppPacket} (hr : Remembered A D r pkt) :
    Remembered A D (r.afterTurn k t pc c recv calls) pkt := by
  obtain ⟨v, hv, hp, hv'⟩ := hr
  refine ⟨v, List.mem_append_left _ hv, hp, hv'.imp ?_ id⟩
  rintro ⟨st, hst, hle⟩
  refine ⟨st, ?_, hle⟩
  change recv.get? _ = _
  obtain hrecv | ⟨pkt', -, -, hn, hrecv⟩ := hT.recv_cases (h.sound.holds t (List.mem_of_getElem? hk))
  · rw [hrecv, hst]
  · rw [hrecv, PyDict.get?_set_ne, hst]
    intro he
    rw [PyDict.contains, ← he, hst] at hn
    cases hn

theorem DeliveredOnce.log_turn (hk : r.tasks[k]? = some t)
    (hi : InTime A D r (.resume k res)) (hT : Turn A r t res pc c recv calls) :
    (∀ x ∈ calls, Remembered A D (r.afterTurn k t pc c recv calls) x.2 ∧
      ∀ v ∈ r.log, v.pkt = x.2 → v.task = k) ∧
    (∀ x ∈ calls, ∀ y ∈ calls, x = y) ∧ (calls ≠ [] → pc.early = false) ∧
    (r.calledBy k ++ (calls.map Prod.fst ++ pc.todo)).Nodup := by
  obtain ⟨rfl, hc, -⟩ | ⟨pkt, x, todo, hpc, hn, hl, rfl, rfl, rfl⟩ |
    ⟨pkt, x, todo, size, hpc, rfl, rfl, rfl⟩ := hT.calls_cases
  · refine ⟨nofun, nofun, fun h => absurd rfl h, ?_⟩
    rw [TaskPc.todo_eq_nil hc]
    simpa using (h.called k t hk).of_append_left
  · have hnot := h.not_delivered hk hi hpc hn
    refine ⟨fun y hy => ?_, fun y hy z hz => ?_, fun _ => rfl, ?_⟩
    · obtain rfl := List.mem_singleton.mp hy
      refine ⟨⟨_, List.mem_append_right _ (List.mem_singleton_self _), rfl, .inl
        ⟨r.clock, PyDict.get?_set_self .., le_rfl⟩⟩, fun v hv hvp => absurd hvp (hnot v hv)⟩
    · rw [List.mem_singleton.mp hy, List.mem_singleton.mp hz]
    · have hnone : r.calledBy k = [] := by
        rw [calledBy, List.map_eq_nil_iff, List.filter_eq_nil_iff]
        intro v hv hvk
        obtain ⟨t', ht', he⟩ := h.caller v hv
        rw [of_decide_eq_true hvk, hk] at ht'
        cases ht'
        rw [hpc] at he
        cases he
      rw [hnone]
      have hnodup := (r.clients t.client).msgHandlers.nodup
      rw [hl] at hnodup
      exact hnodup
  · obtain ⟨v, hv, hvk, rfl⟩ := h.calling k t pkt (x :: todo) size hk hpc
    refine ⟨fun y hy => ?_, fun y hy z hz => ?_, fun _ => rfl, ?_⟩
    · obtain rfl := List.mem_singleton.mp hy
      exact ⟨h.remembered_turn hk hT (h.remembered v hv),
        fun w hw hwp => (h.oneTask w hw v hv hwp).trans hvk⟩
    · rw [List.mem_singleton.mp hy, List.mem_singleton.mp hz]
    · have hnodup := h.called k t hk
      rw [hpc] at hnodup
      exact hnodup

theorem DeliveredOnce.turn (hk : r.tasks[k]? = some t)
    (hi : InTime A D r (.resume k res)) (hT : Turn A r t res pc c recv calls)
    (hs : Sound A (r.afterTurn k t pc c recv calls))
    (hD : ∀ i, ((r.afterTurn k t pc c recv calls).clients i).republishDuration = D) :
    DeliveredOnce A D (r.afterTurn k t pc c recv calls) := by
  obtain ⟨hnew, hone, hearly, hnodup⟩ := h.log_turn hk hi hT
  have hlog : ∀ v ∈ (r.afterTurn k t pc c recv calls).log,
      v ∈ r.log ∨ ∃ x ∈ calls, v = ⟨k, x.1, t.client, x.2, r.clock⟩ := by
    intro v hv
    rcases List.mem_append.mp hv with hv | hv
    · exact .inl hv
    · obtain ⟨x, hx, rfl⟩ := List.mem_map.mp hv
      exact .inr ⟨x, hx, rfl⟩
  have hself : (r.afterTurn k t pc c recv calls).tasks[k]? = some { t with pc } := by
    rw [getElem?_afterTurn hk, if_pos rfl]
  refine
    { sound := hs
      duration := hD
      started := h.started
      remembered := fun v hv => ?_
      oneTask := fun v hv w hw hvw => ?_
      caller := fun v hv => ?_
      called := fun j u hj => ?_
      calling := fun j u pkt todo size hj hu => ?_ }
  · obtain hv | ⟨x, hx, rfl⟩ := hlog v hv
    · exact h.remembered_turn hk hT (h.remembered v hv)
    · exact (hnew x hx).1
  · obtain hv | ⟨x, hx, rfl⟩ := hlog v hv <;> obtain hw | ⟨y, hy, rfl⟩ := hlog w hw
    · exact h.oneTask v hv w hw hvw
    · exact (hnew y hy).2 v hv hvw
    · exact ((hnew x hx).2 w hw hvw.symm).symm
    · rfl
  · obtain hv | ⟨x, hx, rfl⟩ := hlog v hv
    · obtain ⟨u, hu, he⟩ := h.caller v hv
      by_cases hj : v.task = k
      · rw [hj, hk] at hu
        cases hu
        exact ⟨_, by rw [hj]; exact hself, hT.early_eq_false he⟩
      · exact ⟨u, by rw [getElem?_afterTurn hk, if_neg hj]; exact hu, he⟩
    · exact ⟨_, hself, hearly (List.ne_nil_of_mem hx)⟩
  · rw [calledBy_afterTurn]
    rw [getElem?_afterTurn hk] at hj
    split_ifs at hj ⊢ with hjk
    · cases hj
      rw [hjk, List.append_assoc]
      exact hnodup
    · rw [List.append_nil]
      exact h.called j u hj
  · rw [getElem?_afterTurn hk] at hj
    split_ifs at hj with hjk
    · cases hj
      obtain ⟨-, hc, -⟩ | ⟨pkt', x, todo', hpc, hn, hl, rfl, rfl, rfl⟩ |
        ⟨pkt', x, todo', size', hpc, rfl, rfl, rfl⟩ := hT.calls_cases
      · simp only at hu
        rw [hu] at hc
        cases hc
      · cases hu
        exact ⟨_, List.mem_append_right _ (List.mem_singleton_self _), hjk.symm, rfl⟩
      · cases hu
        exact ⟨_, List.mem_append_right _ (List.mem_singleton_self _), hjk.symm, rfl⟩
    · obtain ⟨v, hv, hv'⟩ := h.calling j u pkt todo size hj hu
      exact ⟨v, List.mem_append_left _ hv, hv'⟩

omit [DecidableEq ι] in
theorem DeliveredOnce.of_log (hs : Sound A r') (hD : ∀ i, (r'.clients i).republishDuration = D)
    (hstarted : ∀ i n, (r'.dispatchers i).pc.startedAt = some n → n ≤ r'.clock)
    (hlog : r'.log = r.log) (hr : ∀ pkt, Remembered A D r pkt → Remembered A D r' pkt)
    (hold : ∀ (k : ℕ) (t : Task ι), r.tasks[k]? = some t → r'.tasks[k]? = some t)
    (hnew : ∀ (k : ℕ) (t : Task ι), r'.tasks[k]? = some t →
      r.tasks[k]? = some t ∨ r.tasks[k]? = none ∧ t.pc.early = true) :
    DeliveredOnce A D r' := by
  have hcalled : ∀ k, r'.calledBy k = r.calledBy k := fun k => by rw [calledBy, hlog]; rfl
  refine
    { sound := hs
      duration := hD
      started := hstarted
      remembered := fun v hv => hr _ (h.remembered v (hlog ▸ hv))
      oneTask := fun v hv w hw => h.oneTask v (hlog ▸ hv) w (hlog ▸ hw)
      caller := fun v hv => ?_
      called := fun k t hk => ?_
      calling := fun k t pkt todo size hk hpc => ?_ }
  · obtain ⟨t, ht, he⟩ := h.caller v (hlog ▸ hv)
    exact ⟨t, hold _ t ht, he⟩
  · rw [hcalled]
    obtain hk | ⟨hk, he⟩ := hnew k t hk
    · exact h.called k t hk
    · have hnone : r.calledBy k = [] := by
        rw [calledBy, List.map_eq_nil_iff, List.filter_eq_nil_iff]
        intro v hv hvk
        obtain ⟨t', ht', -⟩ := h.caller v hv
        rw [of_decide_eq_true hvk, hk] at ht'
        cases ht'
      rw [hnone, TaskPc.todo_eq_nil (TaskPc.calling_of_early he)]
      exact List.nodup_nil
  · rw [hlog]
    obtain hk | ⟨-, he⟩ := hnew k t hk
    · exact h.calling k t pkt todo size hk hpc
    · rw [hpc] at he
      cases he

theorem DeliveredOnce.step (hA : A.Lawful) (hi : InTime A D r a) (hstep : r.step A a = some r') :
    DeliveredOnce A D r' := by
  have hM := step_spec hA hstep
  have hs := hM.sound hA h.sound
  have hD : ∀ i, (r'.clients i).republishDuration = D := fun i =>
    (hM.writes hA h.sound i).grows.republishDuration.trans (h.duration i)
  cases hM with
  | @tick u hle =>
    refine h.of_log hs hD (fun i n hn => (h.started i n hn).trans hle) rfl ?_
      (fun _ _ hk => hk) fun _ _ hk => .inl hk
    rintro pkt ⟨v, hv, hp, hv'⟩
    exact ⟨v, hv, hp, hv'.imp id fun hlate => hlate.trans_le hle⟩
  | @recv i topic payload withId pc hpc =>
    refine h.of_log hs hD h.started rfl (fun _ hr => hr)
      (fun k t hk => (List.getElem?_append_left (List.getElem?_eq_some_iff.mp hk).1).trans hk)
      fun k t hk => ?_
    by_cases hkl : k < r.tasks.length
    · exact .inl ((List.getElem?_append_left hkl).symm.trans hk)
    · refine .inr ⟨List.getElem?_eq_none (not_lt.mp hkl), ?_⟩
      obtain hk | rfl := getElem?_concat_cases hk
      · exact absurd (List.getElem?_eq_some_iff.mp hk).1 hkl
      · obtain rfl | ⟨e, rfl⟩ | rfl := hpc
        · rfl
        · rfl
        · change (r.checkTopic A i topic).early = true
          obtain ⟨e, he⟩ | he := checkTopic_pc (A := A) r i topic <;>
          · rw [he]; rfl
  | turn hk hT => exact h.turn hk hi hT hs hD
  | client dispatchers running hd hw =>
    refine h.of_log hs hD (fun i n hn => ?_) rfl (fun _ hr => hr) (fun _ _ hk => hk)
      fun _ _ hk => .inl hk
    exact (hd i n hn).elim (h.started i n) fun hn => hn.le
  | @prune i draw now c dispatchers running hd hpc hc =>
    refine h.of_log hs hD (fun i n hn => ?_) rfl ?_ (fun _ _ hk => hk) fun _ _ hk => .inl hk
    · exact (hd i n hn).elim (h.started i n) fun hn => hn.le
    · rintro pkt ⟨v, hv, hp, hv'⟩
      refine ⟨v, hv, hp, ?_⟩
      obtain ⟨st, hst, hle⟩ | hlate := hv'
      · obtain hst' | hold := pruneTable_get? hst
        · exact .inl ⟨st, hst', hle⟩
        · right
          have hnow : now ≤ r.clock :=
            h.started i now (by rcases hpc with hpc | hpc <;> rw [hpc] <;> rfl)
          rw [h.duration i] at hold
          change v.time + 2 * D < r.clock
          linarith
      · exact .inr hlate

end Step

/-- At most one delivery: while deduplication checks come in time, each handler is called at most
once with each packet, whatever is replayed, on whatever client, and whenever ids are pruned. -/
theorem at_most_once_in_time (hA : A.Lawful) {r₀ : Router KP ι} {as : List (Action ι)}
    (h₀ : Fresh r₀) (hD : ∀ i, (r₀.clients i).republishDuration = D)
    (has : Machine.Meets (step A) (InTime A D) r₀ as)
    (hrun : Machine.run (step A) r₀ as = some r) (pkt : AppPacket) (x : ℕ) :
    r.deliveries pkt x ≤ 1 :=
  (Machine.run_invariant (fun _ _ _ h hi hs => h.step hA hi hs) (h₀.deliveredOnce hD) has
    hrun).deliveries_le_one pkt x

open Concrete

/-- A message of second 100 that is delivered at 100.25 on one client, forgotten at 220.8 by a round
that began at 220.3, and replayed at 220.9 on the other, where the age check still passes it. -/
def lateReplay : List (Action Bool) :=
  let hello := signedBy 7 100 (queueId 'a') 0 .msg "hello"
  [.tick (401 / 4), .recv true (concrete.pkHex 1) hello false, .resume 0 (.ok 0), .resume 0 (.ok 0),
    .tick (2203 / 10), .dispatch false 0, .dispatch false 0, .dispatch false 0, .dispatch false 0,
    .dispatch false 0, .tick (1104 / 5), .dispatch false 0, .dispatch false 0, .tick (2209 / 10),
    .recv false (concrete.pkHex 1) hello false, .resume 1 (.ok 0), .resume 1 (.ok 0)]

theorem delivered_twice :
    ∃ r, Machine.run (step concrete) (connected 1 ⟨[5], by decide⟩ 100) lateReplay = some r ∧
      ¬ r.deliveries (packet 7 100 (queueId 'a') 0 .msg "hello") 5 ≤ 1 := by
  obtain ⟨r, hr, hd⟩ := Machine.exists_run_of_any (step concrete)
    (connected 1 ⟨[5], by decide⟩ 100) lateReplay
    (fun r => decide (r.deliveries (packet 7 100 (queueId 'a') 0 .msg "hello") 5 = 2))
    (by decide +kernel)
  exact ⟨r, hr, by rw [of_decide_eq_true hd]; decide⟩

def earlyReplay : List (Action Bool) :=
  let hello := signedBy 7 100 (queueId 'a') 0 .msg "hello"
  [.tick (401 / 4), .recv true (concrete.pkHex 1) hello false, .resume 0 (.ok 0), .resume 0 (.ok 0), .tick 220,
    .recv false (concrete.pkHex 1) hello false, .resume 1 (.ok 0), .resume 1 (.ok 0)]

theorem at_most_once_in_time_early_replay :
    ∃ r, Machine.run (step concrete) (connected 1 ⟨[5], by decide⟩ 100) earlyReplay = some r ∧
      ∀ pkt x, r.deliveries pkt x ≤ 1 := by
  obtain ⟨r, hr, -⟩ := Machine.exists_run_of_any (step concrete)
    (connected 1 ⟨[5], by decide⟩ 100) earlyReplay (fun _ => true) (by decide +kernel)
  exact ⟨r, hr, at_most_once_in_time concrete_lawful
    (fresh_connected 1 ⟨[5], by decide⟩ (by norm_num) (by decide +kernel)) (fun _ => rfl)
    (by decide +kernel) hr⟩

end Router

end Sidewire
