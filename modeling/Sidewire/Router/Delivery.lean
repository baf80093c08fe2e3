import Sidewire.Mqtt.Concrete
import Sidewire.Router.Acks

/-! # Delivery to every handler

A task calls the handlers of its client one after the other and waits for each.
While it waits, handlers may be added and further copies of the message may
arrive, and a handler may end in an error that is raised again. As long as none
of these disturbs the loop, the handlers called and those still to be called
make up the set that was there when the delivery started.
-/

namespace Sidewire

theorem HandlerSet.add_of_mem {s : HandlerSet} {x : ℕ} (h : x ∈ s.toList) : s.add x = s :=
  dif_pos h

namespace Router

open MQTTClient

variable {KP ι : Type} {A : Aio KP} {r r' : Router KP ι} {a : Action ι}
  {k rnd : ℕ} {res : Except PyExc ℕ} {i : ι} {t : Task ι} {pkt : AppPacket} {S called todo : List ℕ}

def Called (r : Router KP ι) (k : ℕ) (pkt : AppPacket) (S : List ℕ) : Prop :=
  ∀ x ∈ S, ∃ v ∈ r.log, v.task = k ∧ v.handler = x ∧ v.pkt = pkt

/-- The content has not been stamped as seen, and no task delivers it or acknowledges it. -/
def NewMsg (A : Aio KP) (r : Router KP ι) (pkt : AppPacket) : Prop :=
  r.recvMsgIds.contains (A.msgHash pkt.msg) = false ∧
    ∀ t ∈ r.tasks, ∀ pkt' ∈ t.pc.answering, A.msgHash pkt'.msg ≠ A.msgHash pkt.msg

instance : Decidable (NewMsg A r pkt) := inferInstanceAs (Decidable (_ ∧ _))

def AcksCopy (A : Aio KP) (pkt : AppPacket) (r : Router KP ι) (a : Action ι) : Prop :=
  ∃ k ∈ a.resumed, ∃ t pkt' s signed, r.tasks[k]? = some t ∧ t.pc = .signing pkt' s signed ∧
    A.msgHash pkt'.msg = A.msgHash pkt.msg

section Steady

variable [DecidableEq ι]

/-- A step that leaves the deliveries in progress alone: no new handler is added to a client that
has handlers left to call, no copy of a message comes to the deduplication check while a delivery of
its content has, and no handler but the last ends in an error that is raised again. -/
def Steady (A : Aio KP) (r : Router KP ι) : Action ι → Prop
  | .addMsgHandler i x =>
    x ∈ (r.clients i).msgHandlers.toList ∨ ∀ t ∈ r.tasks, t.client = i → t.pc.todo = []
  | .resume k (.ok _) => ∀ pkt ∈ r.checking k, ∀ t ∈ r.tasks, ∀ pkt' ∈ t.pc.answering,
      A.msgHash pkt'.msg = A.msgHash pkt.msg → t.pc.todo = []
  | .resume k (.error _) => ∀ t ∈ r.tasks[k]?, t.pc.todo = []
  | _ => True

instance : DecidablePred (Steady A r) := by
  intro a
  cases a with
  | resume k res => cases res <;> unfold Steady <;> infer_instance
  | _ => unfold Steady; infer_instance

end Steady

/-- The delivery is in progress: its client has the handlers it had, some of them called, and no
other task delivers the content or acknowledges it. -/
def Underway (A : Aio KP) (k : ℕ) (pkt : AppPacket) (called todo : List ℕ) (r : Router KP ι) :
    Prop :=
  ∃ t size, r.tasks[k]? = some t ∧ t.pc = .handling pkt todo size ∧
    (r.clients t.client).msgHandlers.size = size ∧ r.Called k pkt called ∧
    ∀ j u, j ≠ k → r.tasks[j]? = some u → ∀ pkt' ∈ u.pc.answering,
      A.msgHash pkt'.msg ≠ A.msgHash pkt.msg

def Delivers (A : Aio KP) (k : ℕ) (pkt : AppPacket) (S : List ℕ) (r : Router KP ι) : Prop :=
  r.Called k pkt S ∨ ∃ called todo, S = called ++ todo ∧ Underway A k pkt called todo r

theorem Called.mono (h : r.Called k pkt S) (hlog : r.log <+: r'.log) : r'.Called k pkt S := by
  intro x hx
  obtain ⟨v, hv, hvx⟩ := h x hx
  exact ⟨v, hlog.subset hv, hvx⟩

theorem Called.concat {v : Invocation ι} (h : r.Called k pkt called) (hv : v ∈ r.log) (hk : v.task = k)
    (hpkt : v.pkt = pkt) : r.Called k pkt (called ++ [v.handler]) := by
  intro x hx
  rcases List.mem_append.mp hx with hx | hx
  · exact h x hx
  · exact ⟨v, hv, hk, (List.mem_singleton.mp hx).symm, hpkt⟩

theorem checking_of_hashing (hk : r.tasks[k]? = some t) (hpc : t.pc = .hashing pkt) :
    r.checking k = some pkt := by
  simp only [checking, hk, hpc]

theorem answering_checkTopic (r : Router KP ι) (i : ι) (topic : String) :
    (r.checkTopic A i topic).answering = none := by
  obtain ⟨e, he⟩ | he := checkTopic_pc (A := A) r i topic <;>
  · rw [he]; rfl

theorem Turn.answering_cases {pc : TaskPc} {c : MQTTClient KP} {recv : PyDict String ℚ}
    {calls : List (ℕ × AppPacket)} (h : Turn A r t res pc c recv calls)
    (hpkt : pkt ∈ pc.answering) :
    (∃ rnd, res = .ok rnd ∧ t.pc = .hashing pkt) ∨ pkt ∈ t.pc.answering := by
  cases h with
  | topic =>
    rw [answering_checkTopic] at hpkt
    cases hpkt
  | again h hp hm ho he hpc => obtain rfl | ⟨e, rfl⟩ := hpc <;> cases hpkt
  | probe h hp hm hpc => obtain rfl | ⟨e, rfl⟩ := hpc <;> cases hpkt
  | signed h hpc => obtain rfl | ⟨e, rfl⟩ := hpc <;> cases hpkt
  | seen h hs hack =>
    obtain rfl := hack.answering _ hpkt
    exact Or.inl ⟨_, rfl, h⟩
  | first h =>
    cases hpkt
    exact Or.inl ⟨_, rfl, h⟩
  | unheard h hn hl hack =>
    obtain rfl := hack.answering _ hpkt
    exact Or.inl ⟨_, rfl, h⟩
  | next h =>
    cases hpkt
    exact Or.inr (by rw [h]; rfl)
  | last h hack =>
    obtain rfl := hack.answering _ hpkt
    exact Or.inr (by rw [h]; rfl)
  | drop | fresh | ack | changed | sent => cases hpkt
  | failed h => obtain ⟨-, rfl⟩ | ⟨-, -, rfl⟩ := failed_cases h <;> cases hpkt

theorem Turn.of_handling {pc : TaskPc} {c : MQTTClient KP} {recv : PyDict String ℚ}
    {calls : List (ℕ × AppPacket)} {x size : ℕ} (h : Turn A r t (.ok rnd) pc c recv calls)
    (hpc : t.pc = .handling pkt (x :: todo) size)
    (hsize : (r.clients t.client).msgHandlers.size = size) :
    pc = .handling pkt todo size ∧ c = r.clients t.client ∧ calls = [(x, pkt)] := by
  cases h with
  | next h =>
    cases hpc.symm.trans h
    exact ⟨rfl, rfl, rfl⟩
  | changed h hne =>
    cases hpc.symm.trans h
    exact absurd hsize hne
  | last h => cases hpc.symm.trans h
  | topic h | drop h | again h | fresh h | ack h | probe h | seen h | first h | unheard h
  | signed h | sent h => cases hpc.symm.trans h

theorem Turn.of_hashing {pc : TaskPc} {c : MQTTClient KP} {recv : PyDict String ℚ}
    {calls : List (ℕ × AppPacket)} (h : Turn A r t res pc c recv calls) (hpc : t.pc = .hashing pkt)
    (hn : r.recvMsgIds.contains (A.msgHash pkt.msg) = false) :
    (r.clients t.client).msgHandlers.toList = [] ∨
      ∃ x todo, (r.clients t.client).msgHandlers.toList = x :: todo ∧
        pc = .handling pkt todo (r.clients t.client).msgHandlers.size ∧
        c = r.clients t.client ∧ calls = [(x, pkt)] := by
  cases h with
  | seen h hs =>
    cases hpc.symm.trans h
    cases hn.symm.trans hs
  | first h hn hl =>
    cases hpc.symm.trans h
    exact Or.inr ⟨_, _, hl, rfl, rfl, rfl⟩
  | unheard h hn hl => exact Or.inl hl
  | topic h | drop h | again h | fresh h | ack h | probe h | next h | changed h | last h
  | signed h | sent h => cases hpc.symm.trans h
  | failed h =>
    rw [hpc] at h
    cases h

variable [DecidableEq ι]

theorem Move.answering_cases (h : Move A r a r') {j : ℕ} {u : Task ι} (hj : r'.tasks[j]? = some u)
    (hpkt : pkt ∈ u.pc.answering) : (∃ rnd, a = .resume j (.ok rnd) ∧
      r.checking j = some pkt) ∨
      ∃ v, r.tasks[j]? = some v ∧ pkt ∈ v.pc.answering := by
  cases h with
  | tick | client | prune => exact Or.inr ⟨u, hj, hpkt⟩
  | recv hnew =>
    rcases getElem?_concat_cases hj with hj | rfl
    · exact Or.inr ⟨u, hj, hpkt⟩
    · rcases hnew with rfl | ⟨e, rfl⟩ | rfl
      · cases hpkt
      · cases hpkt
      · simp only [answering_checkTopic, Option.mem_def] at hpkt
        cases hpkt
  | @turn k res t pc c recv calls hk hT =>
    rw [getElem?_afterTurn hk] at hj
    split_ifs at hj with heq
    · subst heq
      cases hj
      rcases hT.answering_cases hpkt with h | h
      · obtain ⟨rnd, rfl, h⟩ := h
        exact Or.inl ⟨rnd, rfl, checking_of_hashing hk h⟩
      · exact Or.inr ⟨t, hk, h⟩
    · exact Or.inr ⟨u, hj, hpkt⟩

theorem Steady.msgHandlers (hA : A.Lawful) (hs : Sound A r) (ha : Steady A r a)
    (h : Router.step A r a = some r') (ht : t ∈ r.tasks) (htodo : t.pc.todo ≠ []) :
    (r'.clients t.client).msgHandlers = (r.clients t.client).msgHandlers := by
  by_cases hadd : ∃ x, a = .addMsgHandler t.client x
  · obtain ⟨x, rfl⟩ := hadd
    rcases ha with hx | hidle
    · cases act_of_step h
      simp only [setClient, Function.update_self, HandlerSet.add_of_mem hx]
    · exact absurd (hidle t ht rfl) htodo
  · apply ((step_spec hA h).writes hA hs t.client).msgHandlers
    intro x hcause
    cases hcause with
    | handler => exact hadd ⟨x, rfl⟩

theorem Underway.turn {x : ℕ} {pc : TaskPc} {c : MQTTClient KP} {recv : PyDict String ℚ}
    {calls : List (ℕ × AppPacket)} (hu : Underway A k pkt called (x :: todo) r)
    (hk : r.tasks[k]? = some t) (hT : Turn A r t (.ok rnd) pc c recv calls) :
    Underway A k pkt (called ++ [x]) todo (r.afterTurn k t pc c recv calls) := by
  obtain ⟨u, size, hu, hpc, hsize, hcalled, halone⟩ := hu
  cases hk.symm.trans hu
  obtain ⟨rfl, rfl, rfl⟩ := hT.of_handling hpc hsize
  have hkt : ∀ j : ℕ, (r.afterTurn k t (.handling pkt todo size) (r.clients t.client) recv
      [(x, pkt)]).tasks[j]? = if j = k then some { t with pc := .handling pkt todo size } else
        r.tasks[j]? := getElem?_afterTurn hk
  refine ⟨{ t with pc := .handling pkt todo size }, size, ?_, rfl, ?_, ?_, ?_⟩
  · rw [hkt, if_pos rfl]
  · simpa [afterTurn] using hsize
  · apply Called.concat (v := ⟨k, x, t.client, pkt, r.clock⟩)
    · exact hcalled.mono (List.prefix_append ..)
    · exact List.mem_append_right _ (List.mem_singleton_self _)
    · rfl
    · rfl
  · intro j v hj hv
    rw [hkt, if_neg hj] at hv
    exact halone j v hj hv

theorem Underway.step {x : ℕ} (hA : A.Lawful) (hs : Sound A r)
    (hu : Underway A k pkt called (x :: todo) r) (ha : Steady A r a)
    (h : Router.step A r a = some r') :
    Underway A k pkt called (x :: todo) r' ∨ Underway A k pkt (called ++ [x]) todo r' := by
  have hM := step_spec hA h
  obtain ⟨t, size, hk, hpc, hsize, hcalled, halone⟩ := id hu
  have hmem : t ∈ r.tasks := List.mem_of_getElem? hk
  have hsize' : (r'.clients t.client).msgHandlers.size = size := by
    rw [ha.msgHandlers hA hs h hmem (by rw [hpc]; exact List.cons_ne_nil _ _), hsize]
  have halone' : ∀ j u, j ≠ k → r'.tasks[j]? = some u → ∀ pkt' ∈ u.pc.answering,
      A.msgHash pkt'.msg ≠ A.msgHash pkt.msg := by
    intro j u hne hj pkt' hpkt' hhash
    rcases hM.answering_cases hj hpkt' with ⟨rnd, rfl, hcheck⟩ | ⟨v, hv, hvpkt⟩
    · -- a copy that comes to the check would find this delivery with handlers left to call
      have htodo := ha pkt' hcheck t hmem pkt (by rw [hpc]; rfl) hhash.symm
      rw [hpc] at htodo
      cases htodo
    · exact halone j v hne hv pkt' hvpkt hhash
  have hstay : r'.tasks[k]? = some t → Underway A k pkt called (x :: todo) r' := fun hk' =>
    ⟨t, size, hk', hpc, hsize', hcalled.mono hM.log, halone'⟩
  cases hM with
  | tick | client | prune => exact Or.inl (hstay hk)
  | recv =>
    refine Or.inl (hstay ?_)
    rw [List.getElem?_append_left (List.getElem?_eq_some_iff.mp hk).1]
    exact hk
  | @turn j res u pc c recv calls hj hT =>
    by_cases hjk : j = k
    · subst hjk
      cases res with
      | ok rnd => exact Or.inr (hu.turn hj hT)
      | error e =>
        have htodo := ha t hk
        rw [hpc] at htodo
        cases htodo
    · refine Or.inl (hstay ?_)
      rw [getElem?_afterTurn hj, if_neg (Ne.symm hjk)]
      exact hk

omit [DecidableEq ι] in
theorem Underway.all_called (hu : Underway A k pkt called [] r) : r.Called k pkt called := by
  obtain ⟨t, size, -, -, -, hcalled, -⟩ := hu
  exact hcalled

theorem Delivers.step (hA : A.Lawful) (hs : Sound A r) (hd : Delivers A k pkt S r)
    (ha : Steady A r a) (h : Router.step A r a = some r') : Delivers A k pkt S r' := by
  rcases hd with hcalled | ⟨called, todo, rfl, hu⟩
  · exact Or.inl (hcalled.mono (step_spec hA h).log)
  · cases todo with
    | nil =>
      rw [List.append_nil]
      exact Or.inl (hu.all_called.mono (step_spec hA h).log)
    | cons x todo =>
      rcases hu.step hA hs ha h with hu | hu
      · exact Or.inr ⟨called, x :: todo, rfl, hu⟩
      · exact Or.inr ⟨called ++ [x], todo, by simp, hu⟩

theorem Delivers.start (hk : r.tasks[k]? = some t) (hpc : t.pc = .hashing pkt)
    (hnew : NewMsg A r pkt) (h : Router.step A r (.resume k res) = some r') :
    Delivers A k pkt (r.clients t.client).msgHandlers.toList r' := by
  obtain ⟨u, pc, c, recv, calls, hk', hT, rfl⟩ := resume_spec (resume_of_step h)
  cases hk.symm.trans hk'
  rcases hT.of_hashing hpc hnew.1 with hnil | ⟨x, todo, hl, rfl, rfl, rfl⟩
  · rw [hnil]
    left
    intro x hx
    cases hx
  · rw [hl]
    have hkt : ∀ j : ℕ, (r.afterTurn k t
        (.handling pkt todo (r.clients t.client).msgHandlers.size) (r.clients t.client) recv
        [(x, pkt)]).tasks[j]? = if j = k then
          some { t with pc := .handling pkt todo (r.clients t.client).msgHandlers.size } else
          r.tasks[j]? := getElem?_afterTurn hk
    refine Or.inr ⟨[x], todo, rfl, ⟨t.client, t.topic, t.payload, .handling pkt todo
      (r.clients t.client).msgHandlers.size⟩, (r.clients t.client).msgHandlers.size, ?_, rfl, ?_,
      ?_, ?_⟩
    · rw [hkt, if_pos rfl]
    · simp [afterTurn]
    · intro y hy
      obtain rfl := List.mem_singleton.mp hy
      exact ⟨⟨k, y, t.client, pkt, r.clock⟩,
        List.mem_append_right _ (List.mem_singleton_self _), rfl, rfl, rfl⟩
    · intro j v hj hv
      rw [hkt, if_neg hj] at hv
      exact hnew.2 v (List.mem_of_getElem? hv)

theorem exists_resume {size : ℕ} (rnd : ℕ) (hrun : r.running = none) (hk : r.tasks[k]? = some t)
    (hpc : t.pc = .handling pkt todo size) :
    ∃ r', Router.step A r (.resume k (.ok rnd)) = some r' := by
  obtain ⟨i, topic, payload, pc⟩ := t
  simp only at hpc
  subst hpc
  exact ⟨r.deliver A k i pkt todo size, by simp only [Router.step, hrun, act, resume, hk]⟩

theorem Underway.finishes (hu : Underway A k pkt called todo r) (hrun : r.running = none) :
    ∃ n w, Machine.run (Router.step A) r (List.replicate n (.resume k (.ok 0))) = some w ∧
      w.Called k pkt (called ++ todo) := by
  induction todo generalizing r called with
  | nil =>
    rw [List.append_nil]
    exact ⟨0, r, rfl, hu.all_called⟩
  | cons x todo ih =>
    obtain ⟨t, size, hk, hpc, -⟩ := id hu
    obtain ⟨r', h⟩ := exists_resume (A := A) 0 hrun hk hpc
    obtain ⟨u, pc, c, recv, calls, hk', hT, rfl⟩ := resume_spec (resume_of_step h)
    obtain ⟨n, w, hw, hcalled⟩ := ih (hu.turn hk' hT) hrun
    refine ⟨n + 1, w, ?_, ?_⟩
    · rw [List.replicate_succ]
      exact Machine.run_cons_eq_some.mpr ⟨_, h, hw⟩
    · rw [List.append_assoc] at hcalled
      exact hcalled

theorem Delivers.finishes (hd : Delivers A k pkt S r) (hrun : r.running = none) :
    ∃ n w, Machine.run (Router.step A) r (List.replicate n (.resume k (.ok 0))) = some w ∧
      w.Called k pkt S := by
  rcases hd with hcalled | ⟨called, todo, rfl, hu⟩
  · exact ⟨0, r, rfl, hcalled⟩
  · exact hu.finishes hrun

omit [DecidableEq ι] in
theorem Delivers.called_of_left (hd : Delivers A k pkt S r) (hk : r.tasks[k]? = some t)
    (hcalling : t.pc.calling = false) : r.Called k pkt S := by
  rcases hd with hcalled | ⟨called, todo, rfl, u, size, hu, hpc, -⟩
  · exact hcalled
  · cases hk.symm.trans hu
    rw [hpc] at hcalling
    cases hcalling

omit [DecidableEq ι] in
/-- When the ack of a copy is queued, every handler has been called. -/
theorem Delivers.called_of_acksCopy (hd : Delivers A k pkt S r) (hack : AcksCopy A pkt r a) :
    r.Called k pkt S := by
  rcases hd with hcalled | ⟨called, todo, rfl, t, size, hk, hpc, -, -, halone⟩
  · exact hcalled
  · obtain ⟨j, -, u, pkt', s, signed, hj, hu, hhash⟩ := hack
    have hne : j ≠ k := by
      rintro rfl
      cases hk.symm.trans hj
      cases hpc.symm.trans hu
    exact absurd hhash (halone j u hne hj pkt' (by rw [hu]; rfl))

/-- In a run of steps that leave the deliveries alone, every handler that the client had when a new
message came to it is called: the task does not leave its handlers before, it gets through them
when they return, and no ack of a copy of the message is queued before. -/
theorem delivered_to_all (hA : A.Lawful) {r₀ u : Router KP ι} {as cs : List (Action ι)}
    (h₀ : Fresh r₀) (h : Machine.run (Router.step A) r₀ as = some r) (hk : r.tasks[k]? = some t)
    (hpc : t.pc = .hashing pkt) (hnew : NewMsg A r pkt)
    (hm : Machine.Meets (Router.step A) (Steady A) r (.resume k (.ok rnd) :: cs))
    (hu : Machine.run (Router.step A) r (.resume k (.ok rnd) :: cs) = some u) :
    (∀ v, u.tasks[k]? = some v → v.pc.calling = false →
        u.Called k pkt (r.clients t.client).msgHandlers.toList) ∧
      (u.running = none → ∃ n w,
        Machine.run (Router.step A) u (List.replicate n (.resume k (.ok 0))) = some w ∧
          w.Called k pkt (r.clients t.client).msgHandlers.toList) ∧
      ∀ a, AcksCopy A pkt u a → u.Called k pkt (r.clients t.client).msgHandlers.toList := by
  have hs : Sound A r :=
    Machine.run_preserves (fun _ _ _ hs hstep => step_sound hA hs hstep) h₀.sound h
  obtain ⟨r', hr', hcs⟩ := Machine.run_cons_eq_some.mp hu
  have hd : Delivers A k pkt (r.clients t.client).msgHandlers.toList u := by
    refine (Machine.run_invariant (I := fun r => Sound A r ∧ Delivers A k pkt _ r)
      (P := Steady A) ?_ ⟨step_sound hA hs hr', .start hk hpc hnew hr'⟩ (hm.2 r' hr') hcs).2
    rintro r a r' ⟨hs, hd⟩ ha hstep
    exact ⟨step_sound hA hs hstep, hd.step hA hs ha hstep⟩
  refine ⟨?_, hd.finishes, fun a => hd.called_of_acksCopy⟩
  intro v hv hcalling
  exact hd.called_of_left hv hcalling

def arrival : List (Action Bool) :=
  let hello := Concrete.signedBy 7 100 (Concrete.queueId 'a') 0 .msg "hello"
  [.recv true (concrete.pkHex 1) hello false, .recv true (concrete.pkHex 1) hello false,
    .resume 0 (.ok 0), .resume 1 (.ok 0)]

theorem delivered_to_all_two : ∃ r u : Router ℕ Bool,
    Machine.run (Router.step concrete) (connected 1 ⟨[5, 6], by decide⟩ 101) arrival = some r ∧
      Machine.run (Router.step concrete) r [.resume 0 (.ok 0), .addMsgHandler true 5,
        .resume 0 (.ok 0), .resume 1 (.ok 0)] = some u ∧
      u.Called 0 (Concrete.packet 7 100 (Concrete.queueId 'a') 0 .msg "hello") [5, 6] := by
  let pkt := Concrete.packet 7 100 (Concrete.queueId 'a') 0 .msg "hello"
  obtain ⟨r, hr, hp⟩ := Machine.exists_run_of_any (Router.step concrete)
    (connected 1 ⟨[5, 6], by decide⟩ 101) arrival (fun r => decide (r.checking 0 = some pkt ∧
      NewMsg concrete r pkt ∧ (∀ i, (r.clients i).msgHandlers.toList = [5, 6]) ∧
      (Machine.runMeeting (Router.step concrete) (Steady concrete) r [.resume 0 (.ok 0),
        .addMsgHandler true 5, .resume 0 (.ok 0), .resume 1 (.ok 0)]).any (fun u => decide (
          ∃ t ∈ u.tasks, t.pc.answering = some pkt ∧ t.pc.calling = false)) = true))
    (by decide +kernel)
  obtain ⟨hcheck, hnew, hall, hany⟩ := of_decide_eq_true hp
  obtain ⟨u, hu, hm, hack⟩ := Machine.exists_runMeeting_of_any (Router.step concrete)
    (Steady concrete) r [.resume 0 (.ok 0), .addMsgHandler true 5, .resume 0 (.ok 0),
      .resume 1 (.ok 0)] _ hany
  obtain ⟨t, hk, hpc⟩ := mem_checking hcheck
  obtain ⟨v, hmem, hans, hcalling⟩ := of_decide_eq_true hack
  obtain ⟨j, hv⟩ := List.mem_iff_getElem?.mp hmem
  have hall := hall t.client
  obtain ⟨-, -, hack⟩ := delivered_to_all concrete_lawful
    (fresh_connected _ _ (by norm_num) (by decide +kernel)) hr hk hpc hnew hm hu
  rw [hall] at hack
  refine ⟨r, u, hr, hu, hack (.resume j (.ok 0)) ⟨j, rfl, v, ?_⟩⟩
  cases hvpc : v.pc with
  | signing pkt' s signed =>
    rw [hvpc] at hans
    cases hans
    exact ⟨_, s, signed, hv, rfl, rfl⟩
  | handling =>
    rw [hvpc] at hcalling
    cases hcalling
  | puback | verifying | hashing | sending | dropped | done | raised =>
    rw [hvpc] at hans
    cases hans

/-- The first handler adds another, which ends the loop; the second copy is acknowledged all the
same, and the second handler never hears of the message. -/
def interrupted : List (Action Bool) :=
  arrival ++ [.resume 0 (.ok 0), .addMsgHandler true 7, .resume 0 (.ok 0), .resume 1 (.ok 0),
    .resume 1 (.ok 0)]

theorem not_delivered_to_all : ∃ r : Router ℕ Bool,
    Machine.run (Router.step concrete) (connected 1 ⟨[5, 6], by decide⟩ 101) interrupted = some r ∧
      ((r.clients true).entry .msgack (Concrete.queueId 'a') 0).isSome ∧
      (∀ t ∈ r.tasks, t.pc.finished = true) ∧ ∀ v ∈ r.log, v.handler ≠ 6 := by
  obtain ⟨r, hr, hp⟩ := Machine.exists_run_of_any (Router.step concrete)
    (connected 1 ⟨[5, 6], by decide⟩ 101) interrupted (fun r => decide (
      ((r.clients true).entry .msgack (Concrete.queueId 'a') 0).isSome ∧
      (∀ t ∈ r.tasks, t.pc.finished = true) ∧ ∀ v ∈ r.log, v.handler ≠ 6)) (by decide +kernel)
  exact ⟨r, hr, of_decide_eq_true hp⟩

end Router

end Sidewire
