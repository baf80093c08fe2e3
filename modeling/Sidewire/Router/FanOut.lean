import Sidewire.Mqtt.Concrete
import Sidewire.Router.Steps

/-! # Copies of one message, handled at once

A message that nobody has seen yet arrives in any number of copies, on any of
the clients, and the tasks that handle them interleave at every `await`. The
stamp in the shared table divides the run: before it no task has called a
handler, after it exactly one task owns the handlers still to be called.
-/

namespace Sidewire

namespace Router

open MQTTClient

variable {KP ι : Type} {A : Aio KP} {r r' : Router KP ι} {a : Action ι}
  {H : HandlerSet} {payload : Bytes} {pkt pkt' : AppPacket} {t : Task ι} {k : ℕ}
  {res : Except PyExc ℕ} {pc : TaskPc} {c : MQTTClient KP} {recv : PyDict String ℚ}
  {calls : List (ℕ × AppPacket)}

/-- The packets of two copies of one message. Every client signs its own, at its own time. -/
@[mk_iff]
structure SameMsg (pkt pkt' : AppPacket) : Prop where
  srcPkHex : pkt'.srcPkHex = pkt.srcPkHex
  queueIdHex : pkt'.queueIdHex = pkt.queueIdHex
  seqNo : pkt'.seqNo = pkt.seqNo
  msgType : pkt'.msgType = pkt.msgType
  msg : pkt'.msg = pkt.msg

instance (pkt pkt' : AppPacket) : Decidable (SameMsg pkt pkt') :=
  decidable_of_iff _ (sameMsg_iff pkt pkt').symm

def IsCopy (A : Aio KP) (pkt : AppPacket) (payload : Bytes) : Prop :=
  ∃ pkt', AppPacket.unpack A payload = .ok (some pkt') ∧ SameMsg pkt pkt'

/-- A payload that shares neither the queue nor, as a message, the content hash of the packet. -/
def Unrelated (A : Aio KP) (pkt : AppPacket) (payload : Bytes) : Prop :=
  ∀ pkt', AppPacket.unpack A payload = .ok (some pkt') → pkt'.queueIdHex ≠ pkt.queueIdHex ∧
    (pkt'.msgType = MsgEnum.msg.value → A.msgHash pkt'.msg ≠ A.msgHash pkt.msg)

def callsOf (r : Router KP ι) (pkt : AppPacket) : List ℕ :=
  (r.log.filter fun v => SameMsg pkt v.pkt).map Invocation.handler

structure Unseen (A : Aio KP) (H : HandlerSet) (pkt : AppPacket) (r : Router KP ι) : Prop where
  sound : Sound A r
  clock_nonneg : 0 ≤ r.clock
  clock_lt : pyInt r.clock < 256 ^ timestampLen
  handlers : ∀ i, (r.clients i).msgHandlers.toList.Perm H.toList
  entries : ∀ i s, (r.clients i).entry .msgack pkt.queueIdHex s = none
  content : r.recvMsgIds.contains (A.msgHash pkt.msg) = false
  tasks : ∀ t ∈ r.tasks, Unrelated A pkt t.payload
  log : ∀ v ∈ r.log, ¬ SameMsg pkt v.pkt

def CopyAt (H : HandlerSet) (pkt : AppPacket) (c : MQTTClient KP) : TaskPc → Prop
  | .handling _ _ size => size = H.size
  | .signing _ _ _ => (c.queue .msgack pkt.queueIdHex).isSome
  | .sending | .done | .raised _ => (c.entry .msgack pkt.queueIdHex pkt.seqNo).isSome
  | _ => True

def Owned (A : Aio KP) (H : HandlerSet) (pkt : AppPacket) (r : Router KP ι) : Prop :=
  ∃ (k : ℕ) (t : Task ι), r.tasks[k]? = some t ∧ IsCopy A pkt t.payload ∧
    (r.callsOf pkt ++ t.pc.todo).Perm H.toList ∧
    ∀ (j : ℕ) (u : Task ι), r.tasks[j]? = some u → IsCopy A pkt u.payload → j ≠ k →
      u.pc.calling = false

structure FannedOut (A : Aio KP) (H : HandlerSet) (pkt : AppPacket)
    (r : Router KP ι) : Prop where
  sound : Sound A r
  clock_nonneg : 0 ≤ r.clock
  clock_lt : pyInt r.clock < 256 ^ timestampLen
  handlers : ∀ i, (r.clients i).msgHandlers.toList.Perm H.toList
  related : ∀ t ∈ r.tasks, IsCopy A pkt t.payload ∨ Unrelated A pkt t.payload
  entries : ∀ i s m, (r.clients i).entry .msgack pkt.queueIdHex s = some m →
    s = pkt.seqNo ∧ m.destPkHex = pkt.srcPkHex
  copies : ∀ t ∈ r.tasks, IsCopy A pkt t.payload → CopyAt H pkt (r.clients t.client) t.pc
  before : r.recvMsgIds.contains (A.msgHash pkt.msg) = false → r.callsOf pkt = [] ∧
    (∀ t ∈ r.tasks, IsCopy A pkt t.payload → t.pc.early = true) ∧
    ∀ i s, (r.clients i).entry .msgack pkt.queueIdHex s = none
  after : r.recvMsgIds.contains (A.msgHash pkt.msg) = true → Owned A H pkt r

theorem IsCopy.same (h : IsCopy A pkt payload)
    (hp : AppPacket.unpack A payload = .ok (some pkt')) : SameMsg pkt pkt' := by
  obtain ⟨pkt'', hp', hs⟩ := h
  rw [hp] at hp'
  cases hp'
  exact hs

theorem Unrelated.not_isCopy (h : Unrelated A pkt payload) : ¬ IsCopy A pkt payload :=
  fun ⟨pkt', hp, hs⟩ => (h pkt' hp).1 hs.queueIdHex

theorem Unseen.fannedOut (h : Unseen A H pkt r) : FannedOut A H pkt r where
  sound := h.sound
  clock_nonneg := h.clock_nonneg
  clock_lt := h.clock_lt
  handlers := h.handlers
  related t ht := .inr (h.tasks t ht)
  entries i s m hm := by rw [h.entries] at hm; cases hm
  copies t ht he := absurd he (h.tasks t ht).not_isCopy
  before _ := by
    refine ⟨?_, fun t ht he => absurd he (h.tasks t ht).not_isCopy, h.entries⟩
    rw [callsOf, List.filter_eq_nil_iff.mpr (fun v hv => by simpa using h.log v hv)]
    rfl
  after hc := by rw [h.content] at hc; cases hc

theorem FannedOut.ackStarts (hA : A.Lawful) (h : FannedOut A H pkt r)
    (hp : AppPacket.unpack A payload = .ok (some pkt')) (hs : SameMsg pkt pkt')
    {c c' : MQTTClient KP} (ha : AckStarts A r.clock pkt' c pc c') :
    ∃ s signed, pc = .signing pkt' s signed ∧ (c'.queue .msgack pkt.queueIdHex).isSome := by
  cases ha with
  | signing hw _ hq => exact ⟨_, _, rfl, hs.queueIdHex ▸ hq⟩
  | failed hw hpc he =>
    have hacc := AppPacket.unpack_spec hp
    have h₀ : 0 ≤ pyInt r.clock := by
      rw [pyInt_of_nonneg h.clock_nonneg]
      exact Int.floor_nonneg.mpr h.clock_nonneg
    obtain ⟨signed, hk⟩ := AppPacket.packAsyncBegin_ack_ok hA hacc h₀ h.clock_lt (.str "ack")
    rw [he (hacc.length_queueIdHex hA) (hacc.length_srcPkHex hA)] at hk
    cases hk

variable [DecidableEq ι]

/-- A step among copies of one message: what else arrives is unrelated, the ack queue of the
message is left alone by the application, no handler is added and no message id pruned, and no
handler called with the message ends with an error that is raised again. -/
structure AmongCopies (A : Aio KP) (pkt : AppPacket) (r : Router KP ι)
    (a : Action ι) : Prop where
  recv : ∀ i topic payload' withId, a = .recv i topic payload' withId →
    IsCopy A pkt payload' ∨ Unrelated A pkt payload'
  queueMsg : ∀ i rnd msg dest q s, a = .queueMsg i rnd msg dest q .msgack s → q ≠ pkt.queueIdHex
  dequeueMsg : ∀ i q s, a = .dequeueMsg i q s .msgack → q ≠ pkt.queueIdHex
  addMsgHandler : ∀ i h, a ≠ .addMsgHandler i h
  returns : ∀ k e t, a = .resume k (.error e) → r.tasks[k]? = some t → IsCopy A pkt t.payload →
    t.pc.calling = false
  noPruning : ∀ r', r.step A a = some r' →
    ∀ id, r.recvMsgIds.contains id = true → r'.recvMsgIds.contains id = true

theorem callsOf_afterTurn : (r.afterTurn k t pc c recv calls).callsOf pkt =
    r.callsOf pkt ++ (calls.filter fun x => SameMsg pkt x.2).map Prod.fst := by
  simp only [callsOf, afterTurn, List.filter_append, List.map_append, List.filter_map,
    List.map_map]
  rfl

theorem AmongCopies.queue_kept (ha : AmongCopies A pkt r a) {i : ι} {c : MQTTClient KP}
    (hw : Writes A (Cause A r i a) (r.clients i) c)
    (hq : ((r.clients i).queue .msgack pkt.queueIdHex).isSome) :
    (c.queue .msgack pkt.queueIdHex).isSome := by
  obtain hq | hu := hw.queue_kept hq
  · exact hq
  · cases hu with
    | dequeued => exact absurd rfl (ha.dequeueMsg _ _ _ rfl)

omit [DecidableEq ι] in
theorem Owned.of_tasks (h : Owned A H pkt r) (hl : r'.callsOf pkt = r.callsOf pkt)
    (ht : ∀ (j : ℕ) (u : Task ι), r.tasks[j]? = some u → IsCopy A pkt u.payload →
      r'.tasks[j]? = some u)
    (hn : ∀ (j : ℕ) (u : Task ι), r'.tasks[j]? = some u → IsCopy A pkt u.payload →
      r.tasks[j]? = some u ∨ u.pc.calling = false) : Owned A H pkt r' := by
  obtain ⟨k, t, hk, hp, ho, hj⟩ := h
  refine ⟨k, t, ht k t hk hp, hp, by rwa [hl], fun j u hu hpu hjk => ?_⟩
  exact (hn j u hu hpu).elim (fun h' => hj j u h' hpu hjk) id

section Step

variable (hA : A.Lawful) (hm : pkt.msgType = MsgEnum.msg.value)

omit [DecidableEq ι] in
theorem isCopy_of_queue (hr : IsCopy A pkt payload ∨ Unrelated A pkt payload)
    (hp : AppPacket.unpack A payload = .ok (some pkt'))
    (hq : pkt'.queueIdHex = pkt.queueIdHex) : IsCopy A pkt payload ∧ SameMsg pkt pkt' := by
  obtain hc | hu := hr
  · exact ⟨hc, hc.same hp⟩
  · exact absurd hq (hu pkt' hp).1

include hm

theorem FannedOut.registered (h : FannedOut A H pkt r)
    (ha : AmongCopies A pkt r a) {i : ι} {x : Queued} (hc : Cause A r i a (.register x))
    (ht : x.msgType = .msgack) (hq : x.queueIdHex = pkt.queueIdHex) :
    x.seqNo = pkt.seqNo ∧ x.destPkHex = pkt.srcPkHex ∧
      (r.clients i).entry .msgack pkt.queueIdHex pkt.seqNo = none ∧
      ∃ t ∈ r.tasks, IsCopy A pkt t.payload ∧ t.pc.early = false := by
  cases hc with
  | queued hn =>
    cases ht
    exact absurd hq (ha.queueMsg _ _ _ _ _ _ rfl)
  | probed => cases ht
  | @acked k rnd t pkt' signed out ack hk hi hpc hn =>
    have htask := List.mem_of_getElem? hk
    have hh := h.sound.holds t htask
    rw [hpc] at hh
    obtain ⟨he, hs⟩ := isCopy_of_queue (h.related t htask) hh.1.1 hq
    rw [hs.queueIdHex, hs.seqNo] at hn
    exact ⟨hs.seqNo, hs.srcPkHex, hn, t, htask, he, by rw [hpc]; rfl⟩
  | @probeAcked k rnd t pkt' out ack hk hi hpc hp' hm' hn =>
    obtain ⟨-, hs⟩ := isCopy_of_queue (h.related t (List.mem_of_getElem? hk)) hp' hq
    rw [hs.msgType, hm] at hm'
    exact absurd hm' (by decide)

theorem FannedOut.entry_kept (h : FannedOut A H pkt r)
    (ha : AmongCopies A pkt r a) {i : ι} {c : MQTTClient KP}
    (hw : Writes A (Cause A r i a) (r.clients i) c)
    (he : ((r.clients i).entry .msgack pkt.queueIdHex pkt.seqNo).isSome) :
    (c.entry .msgack pkt.queueIdHex pkt.seqNo).isSome := by
  obtain ⟨m, hm'⟩ := Option.isSome_iff_exists.mp he
  obtain ⟨m', hm', -⟩ | hf | hu | ⟨x, hx, ht, hq, hs⟩ := hw.entry_kept hm'
  · rw [hm']; rfl
  · generalize hwr : Write.forget .msgack pkt.queueIdHex pkt.seqNo = w at hf
    cases hf with
    | outdated hk hi hpc hp' hm' hs =>
      simp only [Write.forget.injEq, true_and] at hwr
      obtain ⟨-, hsame⟩ := isCopy_of_queue (h.related _ (List.mem_of_getElem? hk)) hp' hwr.1.symm
      exact absurd (hsame.seqNo.trans hwr.2) hs.ne'
    | _ => cases hwr
  · cases hu with
    | dequeued => exact absurd rfl (ha.dequeueMsg _ _ _ rfl)
  · obtain ⟨-, -, hn, -⟩ := h.registered hm ha hx ht hq
    rw [hn] at he
    cases he

theorem FannedOut.copyAt_kept (h : FannedOut A H pkt r)
    (ha : AmongCopies A pkt r a) {i : ι} {c : MQTTClient KP}
    (hw : Writes A (Cause A r i a) (r.clients i) c) {pc : TaskPc}
    (hc : CopyAt H pkt (r.clients i) pc) : CopyAt H pkt c pc := by
  cases pc with
  | signing => exact ha.queue_kept hw hc
  | sending => exact h.entry_kept hm ha hw hc
  | done => exact h.entry_kept hm ha hw hc
  | raised => exact h.entry_kept hm ha hw hc
  | _ => exact hc

omit hm in
theorem FannedOut.unrelated_turn (h : FannedOut A H pkt r) (hk : r.tasks[k]? = some t)
    (hu : Unrelated A pkt t.payload) (ht : Turn A r t res pc c recv calls) :
    (r.afterTurn k t pc c recv calls).callsOf pkt = r.callsOf pkt ∧
      recv.contains (A.msgHash pkt.msg) = r.recvMsgIds.contains (A.msgHash pkt.msg) := by
  have hh := h.sound.holds t (List.mem_of_getElem? hk)
  constructor
  · have hn : calls.filter (fun x => decide (SameMsg pkt x.2)) = [] := by
      rw [List.filter_eq_nil_iff]
      intro x hx he
      exact (hu x.2 (ht.calls_pkt hh x hx)).1 (of_decide_eq_true he).queueIdHex
    rw [callsOf_afterTurn, hn, List.map_nil, List.append_nil]
  · obtain hr | ⟨pkt', hp', hm', -, hr⟩ := ht.recv_cases hh
    · rw [hr]
    · rw [hr, PyDict.contains_set, decide_eq_false (Ne.symm ((hu pkt' hp').2 hm')), Bool.false_or]

omit [DecidableEq ι] in
theorem FannedOut.copy_turn (hA : A.Lawful) (h : FannedOut A H pkt r)
    (hk : r.tasks[k]? = some t) (ht : IsCopy A pkt t.payload)
    (hret : ∀ e, res = .error e → t.pc.calling = false)
    (hT : Turn A r t res pc c recv calls) :
    (r.recvMsgIds.contains (A.msgHash pkt.msg) = false →
      recv.contains (A.msgHash pkt.msg) = false ∧ calls = [] ∧ pc.early = true ∨
      recv.contains (A.msgHash pkt.msg) = true ∧
        ((calls.filter fun x => SameMsg pkt x.2).map Prod.fst ++ pc.todo).Perm H.toList) ∧
    (r.recvMsgIds.contains (A.msgHash pkt.msg) = true →
      recv.contains (A.msgHash pkt.msg) = true ∧
      (t.pc.calling = false → calls = [] ∧ pc.todo = [] ∧ pc.calling = false) ∧
      (calls.filter fun x => SameMsg pkt x.2).map Prod.fst ++ pc.todo = t.pc.todo) := by
  have htask := List.mem_of_getElem? hk
  have hh := h.sound.holds t htask
  have hcopy := h.copies t htask ht
  constructor
  · intro hn
    obtain ⟨-, hearly, hentry⟩ := h.before hn
    have hpc := hearly t htask ht
    cases hT with
    | topic =>
      obtain ⟨e, he⟩ | he := checkTopic_pc (A := A) r t.client t.topic <;>
      · rw [he]; exact .inl ⟨hn, rfl, rfl⟩
    | drop | fresh => exact .inl ⟨hn, rfl, rfl⟩
    | again _ hp' _ _ he =>
      rw [(ht.same hp').queueIdHex, hentry] at he
      cases he
    | ack _ hp' hm' => rw [(ht.same hp').msgType, hm] at hm'; exact absurd hm' (by decide)
    | probe _ hp' hm' => rw [(ht.same hp').msgType, hm] at hm'; exact absurd hm' (by decide)
    | seen hpc' hs =>
      rw [hpc'] at hh
      rw [(ht.same hh.1).msg, hn] at hs
      cases hs
    | first hpc' hn' hl =>
      rw [hpc'] at hh
      have hsame := ht.same hh.1
      right
      refine ⟨by rw [hsame.msg, PyDict.contains_set]; simp, ?_⟩
      have hH := h.handlers t.client
      rw [hl] at hH
      simpa [TaskPc.todo, hsame] using hH
    | unheard hpc' hn' hl ha =>
      rw [hpc'] at hh
      have hsame := ht.same hh.1
      right
      refine ⟨by rw [hsame.msg, PyDict.contains_set]; simp, ?_⟩
      obtain ⟨s, signed, rfl, -⟩ := h.ackStarts hA hh.1 hsame ha
      have hH := h.handlers t.client
      rw [hl] at hH
      simpa [TaskPc.todo] using hH
    | next hpc' | changed hpc' | last hpc' | signed hpc' | sent hpc' => rw [hpc'] at hpc; cases hpc
    | failed hf =>
      obtain ⟨-, rfl⟩ | ⟨hc | hc, -⟩ := failed_cases hf
      · exact .inl ⟨hn, rfl, rfl⟩
      · rw [TaskPc.calling_of_early hpc] at hc; cases hc
      · rw [hc] at hpc; cases hpc
  · intro hs
    have hquiet := fun hc => hT.of_not_calling hc fun pkt' hpc' => by
      rw [hpc'] at hh; rw [(ht.same hh.1).msg]; exact hs
    by_cases hc : t.pc.calling = true
    · cases hT with
      | next hpc' =>
        rw [hpc'] at hh ⊢
        refine ⟨hs, (fun hc' => by cases hc'), ?_⟩
        simp [TaskPc.todo, ht.same hh.1]
      | changed hpc' hl =>
        rw [hpc'] at hcopy
        exact absurd ((h.handlers t.client).length_eq.trans hcopy.symm) hl
      | last hpc' ha =>
        rw [hpc'] at hh ⊢
        obtain ⟨s, signed, rfl, -⟩ := h.ackStarts hA hh.1 (ht.same hh.1) ha
        exact ⟨hs, (fun hc' => by cases hc'), rfl⟩
      | topic hpc' | drop hpc' | again hpc' | fresh hpc' | ack hpc' | probe hpc' | seen hpc'
      | first hpc' | unheard hpc' | signed hpc' | sent hpc' => rw [hpc'] at hc; cases hc
      | failed => rw [hret _ rfl] at hc; cases hc
    · have hc := Bool.eq_false_of_not_eq_true hc
      obtain ⟨rfl, h₁, h₂, rfl⟩ := hquiet hc
      exact ⟨hs, fun _ => ⟨rfl, h₁, h₂⟩, by rw [h₁, TaskPc.todo_eq_nil hc]; rfl⟩

theorem FannedOut.copyAt_turn (hA : A.Lawful) (h : FannedOut A H pkt r)
    (hk : r.tasks[k]? = some t) (ha : AmongCopies A pkt r (.resume k res))
    (ht : IsCopy A pkt t.payload) (hT : Turn A r t res pc c recv calls) : CopyAt H pkt c pc := by
  have htask := List.mem_of_getElem? hk
  have hh := h.sound.holds t htask
  have hw := hT.writes hA h.sound hk
  have hcopy := h.copies t htask ht
  have hkept : ∀ pc, CopyAt H pkt (r.clients t.client) pc → CopyAt H pkt c pc :=
    fun _ hc => h.copyAt_kept hm ha hw hc
  cases hT with
  | topic =>
    obtain ⟨e, he⟩ | he := checkTopic_pc (A := A) r t.client t.topic <;>
    · rw [he]; trivial
  | drop | fresh => trivial
  | again _ hp' _ _ he hpc =>
    rw [(ht.same hp').queueIdHex, (ht.same hp').seqNo] at he
    obtain rfl | ⟨e, rfl⟩ := hpc
    · exact hkept .sending he
    · exact hkept (.raised e) he
  | ack _ hp' hm' => rw [(ht.same hp').msgType, hm] at hm'; exact absurd hm' (by decide)
  | probe _ hp' hm' => rw [(ht.same hp').msgType, hm] at hm'; exact absurd hm' (by decide)
  | seen hpc' _ hstart =>
    rw [hpc'] at hh
    obtain ⟨s, signed, rfl, hq⟩ := h.ackStarts hA hh.1 (ht.same hh.1) hstart
    exact hq
  | first => exact (h.handlers t.client).length_eq
  | unheard hpc' _ _ hstart =>
    rw [hpc'] at hh
    obtain ⟨s, signed, rfl, hq⟩ := h.ackStarts hA hh.1 (ht.same hh.1) hstart
    exact hq
  | next hpc' => rw [hpc'] at hcopy; exact hcopy
  | changed hpc' hl =>
    rw [hpc'] at hcopy
    exact absurd ((h.handlers t.client).length_eq.trans hcopy.symm) hl
  | last hpc' hstart =>
    rw [hpc'] at hh
    obtain ⟨s, signed, rfl, hq⟩ := h.ackStarts hA hh.1 (ht.same hh.1) hstart
    exact hq
  | @signed rnd pkt' s' sg hpc' pc hpc =>
    rw [hpc'] at hh hcopy
    obtain ⟨⟨hp', -⟩, rfl, -⟩ := hh
    have hsame := ht.same hp'
    obtain ⟨a, -, m, hm', -⟩ := queueMsgAsyncEnd_entry A rnd r.clock (.str "ack")
      pkt'.srcPkHex pkt'.seqNo sg hcopy
    have he := Option.isSome_iff_exists.mpr ⟨m, hm'⟩
    rw [hsame.seqNo] at he ⊢
    rw [hsame.queueIdHex]
    obtain rfl | ⟨e, rfl⟩ := hpc <;> exact he
  | sent hpc' => rw [hpc'] at hcopy; exact hkept .done hcopy
  | failed hf =>
    obtain ⟨-, rfl⟩ | ⟨hc | hc, -, rfl⟩ := failed_cases hf
    · trivial
    · rw [ha.returns _ _ _ rfl hk ht] at hc; cases hc
    · rw [hc] at hcopy; exact hkept (.raised _) hcopy

theorem FannedOut.stamped_copy_turn (hA : A.Lawful) (h : FannedOut A H pkt r)
    (hk : r.tasks[k]? = some t) (ht : IsCopy A pkt t.payload)
    (hret : ∀ e, res = .error e → t.pc.calling = false)
    (hT : Turn A r t res pc c recv calls) (hs : recv.contains (A.msgHash pkt.msg) = true) :
    Owned A H pkt (r.afterTurn k t pc c recv calls) := by
  obtain ⟨hnew, hold⟩ := h.copy_turn hm hA hk ht hret hT
  have hself : (r.afterTurn k t pc c recv calls).tasks[k]? = some { t with pc } := by
    rw [getElem?_afterTurn hk, if_pos rfl]
  cases hb : r.recvMsgIds.contains (A.msgHash pkt.msg) with
  | false =>
    obtain ⟨hl, hearly, -⟩ := h.before hb
    obtain ⟨hn, -⟩ | ⟨-, hperm⟩ := hnew hb
    · rw [hs] at hn; cases hn
    refine ⟨k, _, hself, ht, ?_, fun j u hu hpu hjk => ?_⟩
    · rw [callsOf_afterTurn, hl]
      exact hperm
    · rw [getElem?_afterTurn hk, if_neg hjk] at hu
      exact TaskPc.calling_of_early (hearly u (List.mem_of_getElem? hu) hpu)
  | true =>
    obtain ⟨-, hquiet, htodo⟩ := hold hb
    obtain ⟨k₀, t₀, hk₀, hp₀, ho, hj⟩ := h.after hb
    by_cases hkk : k = k₀
    · subst hkk
      obtain rfl : t = t₀ := Option.some.inj (hk.symm.trans hk₀)
      refine ⟨k, _, hself, ht, ?_, fun j u hu hpu hjk => ?_⟩
      · rw [callsOf_afterTurn, List.append_assoc]
        change (r.callsOf pkt ++ (_ ++ pc.todo)).Perm _
        rwa [htodo]
      · rw [getElem?_afterTurn hk, if_neg hjk] at hu
        exact hj j u hu hpu hjk
    · obtain ⟨rfl, h₁, h₂⟩ := hquiet (hj k t hk ht hkk)
      refine ⟨k₀, t₀, ?_, hp₀, ?_, fun j u hu hpu hjk => ?_⟩
      · rw [getElem?_afterTurn hk, if_neg (Ne.symm hkk)]
        exact hk₀
      · rw [callsOf_afterTurn]
        simpa using ho
      · rw [getElem?_afterTurn hk] at hu
        split_ifs at hu
        · cases hu; exact h₂
        · exact hj j u hu hpu hjk

theorem FannedOut.entries_step (hA : A.Lawful) (h : FannedOut A H pkt r)
    (ha : AmongCopies A pkt r a) (hM : Move A r a r') {i : ι} {s : ℤ} {m : Meta}
    (he : (r'.clients i).entry .msgack pkt.queueIdHex s = some m) :
    s = pkt.seqNo ∧ m.destPkHex = pkt.srcPkHex ∧
      ((∃ m', (r.clients i).entry .msgack pkt.queueIdHex s = some m') ∨
        ∃ t ∈ r.tasks, IsCopy A pkt t.payload ∧ t.pc.early = false) := by
  obtain ⟨m', hm', hc⟩ | ⟨msg, hx, -, -⟩ := (hM.writes hA h.sound i).entry_cases he
  · obtain ⟨h₁, h₂⟩ := h.entries i s m' hm'
    exact ⟨h₁, (Meta.destPkHex_eq_of_core hc).trans h₂, .inl ⟨m', hm'⟩⟩
  · obtain ⟨h₁, h₂, -, h₃⟩ := h.registered hm ha hx rfl rfl
    exact ⟨h₁, h₂, .inr h₃⟩

theorem FannedOut.copies_step (hA : A.Lawful) (h : FannedOut A H pkt r)
    (ha : AmongCopies A pkt r a) (hM : Move A r a r') :
    ∀ t ∈ r'.tasks, IsCopy A pkt t.payload → CopyAt H pkt (r'.clients t.client) t.pc := by
  have hkept : ∀ t ∈ r.tasks, IsCopy A pkt t.payload → CopyAt H pkt (r'.clients t.client) t.pc :=
    fun t ht hpt => h.copyAt_kept hm ha (hM.writes hA h.sound _) (h.copies t ht hpt)
  cases hM with
  | tick => exact hkept
  | client => exact hkept
  | prune => exact hkept
  | @recv i topic payload' withId pc hpc =>
    intro t ht hpt
    rcases List.mem_append.mp ht with ht | ht
    · exact hkept t ht hpt
    · obtain rfl := List.mem_singleton.mp ht
      obtain rfl | ⟨e, rfl⟩ | rfl := hpc
      · trivial
      · trivial
      · change CopyAt H pkt _ (r.checkTopic A i topic)
        obtain ⟨e, he⟩ | he := checkTopic_pc (A := A) r i topic <;>
        · rw [he]; trivial
  | @turn k res t pc c recv calls hk hT =>
    intro t' ht' hpt
    obtain ht' | rfl := mem_tasks_afterTurn hk ht'
    · exact hkept t' ht' hpt
    · have hc := h.copyAt_turn hm hA hk ha hpt hT
      rwa [← Function.update_self t.client c r.clients] at hc

theorem FannedOut.before_step (hA : A.Lawful) (h : FannedOut A H pkt r)
    (ha : AmongCopies A pkt r a) (hM : Move A r a r') (hstep : r.step A a = some r')
    (hn : r'.recvMsgIds.contains (A.msgHash pkt.msg) = false) :
    r'.callsOf pkt = [] ∧ (∀ t ∈ r'.tasks, IsCopy A pkt t.payload → t.pc.early = true) ∧
      ∀ i s, (r'.clients i).entry .msgack pkt.queueIdHex s = none := by
  have hb : r.recvMsgIds.contains (A.msgHash pkt.msg) = false := by
    by_contra hc
    rw [ha.noPruning r' hstep _ (Bool.eq_true_of_not_eq_false hc)] at hn
    cases hn
  obtain ⟨hl, hearly, hentry⟩ := h.before hb
  have hentry' : ∀ i s, (r'.clients i).entry .msgack pkt.queueIdHex s = none := by
    intro i s
    cases he : (r'.clients i).entry .msgack pkt.queueIdHex s with
    | none => rfl
    | some m =>
      obtain ⟨-, -, ⟨m', hm'⟩ | ⟨t, ht, hpt, hpc⟩⟩ := h.entries_step hm hA ha hM he
      · rw [hentry] at hm'; cases hm'
      · rw [hearly t ht hpt] at hpc; cases hpc
  cases hM with
  | tick => exact ⟨hl, hearly, hentry'⟩
  | client => exact ⟨hl, hearly, hentry'⟩
  | prune => exact ⟨hl, hearly, hentry'⟩
  | @recv i topic payload' withId pc hpc =>
    refine ⟨hl, fun t ht hpt => ?_, hentry'⟩
    rcases List.mem_append.mp ht with ht | ht
    · exact hearly t ht hpt
    · obtain rfl := List.mem_singleton.mp ht
      obtain rfl | ⟨e, rfl⟩ | rfl := hpc
      · rfl
      · rfl
      · change (r.checkTopic A i topic).early = true
        obtain ⟨e, he⟩ | he := checkTopic_pc (A := A) r i topic <;>
        · rw [he]; rfl
  | @turn k res t pc c recv calls hk hT =>
    rcases h.related t (List.mem_of_getElem? hk) with hpt | hu
    · have hret := fun e (he : res = .error e) => ha.returns k e t (by rw [he]) hk hpt
      obtain ⟨-, rfl, hpc⟩ | ⟨hs, -⟩ := (h.copy_turn hm hA hk hpt hret hT).1 hb
      · refine ⟨by rw [callsOf_afterTurn, hl]; rfl, fun t' ht' hpt' => ?_, hentry'⟩
        obtain ht' | rfl := mem_tasks_afterTurn hk ht'
        · exact hearly t' ht' hpt'
        · exact hpc
      · rw [show (r.afterTurn k t pc c recv calls).recvMsgIds = recv from rfl, hs] at hn
        cases hn
    · refine ⟨(h.unrelated_turn hk hu hT).1.trans hl, fun t' ht' hpt' => ?_, hentry'⟩
      obtain ht' | rfl := mem_tasks_afterTurn hk ht'
      · exact hearly t' ht' hpt'
      · exact absurd hpt' hu.not_isCopy

theorem FannedOut.after_step (hA : A.Lawful) (h : FannedOut A H pkt r)
    (ha : AmongCopies A pkt r a) (hM : Move A r a r')
    (hs : r'.recvMsgIds.contains (A.msgHash pkt.msg) = true) : Owned A H pkt r' := by
  have hsame : r.recvMsgIds.contains (A.msgHash pkt.msg) = true → r'.tasks = r.tasks →
      r'.callsOf pkt = r.callsOf pkt → Owned A H pkt r' := fun hb ht hl =>
    (h.after hb).of_tasks hl (fun j u hu _ => ht ▸ hu) fun j u hu _ => .inl (ht ▸ hu)
  cases hM with
  | tick => exact hsame hs rfl rfl
  | client => exact hsame hs rfl rfl
  | @prune i draw now c dispatchers running hd hpc hc =>
    refine hsame ?_ rfl rfl
    rw [PyDict.contains_iff] at hs ⊢
    exact PyDict.mem_keys_of_mem_filter hs
  | @recv i topic payload' withId pc hpc =>
    refine (h.after hs).of_tasks rfl (fun j u hu _ => ?_) fun j u hu _ => ?_
    · exact (List.getElem?_append_left (List.getElem?_eq_some_iff.mp hu).1).trans hu
    · obtain hu | rfl := getElem?_concat_cases hu
      · exact .inl hu
      · right
        obtain rfl | ⟨e, rfl⟩ | rfl := hpc
        · rfl
        · rfl
        · change (r.checkTopic A i topic).calling = false
          obtain ⟨e, he⟩ | he := checkTopic_pc (A := A) r i topic <;>
          · rw [he]; rfl
  | @turn k res t pc c recv calls hk hT =>
    rcases h.related t (List.mem_of_getElem? hk) with hpt | hu
    · exact h.stamped_copy_turn hm hA hk hpt
        (fun e he => ha.returns k e t (by rw [he]) hk hpt) hT hs
    · obtain ⟨hl, hr⟩ := h.unrelated_turn hk hu hT
      refine (h.after (hr ▸ hs)).of_tasks hl (fun j u hju hpu => ?_) fun j u hju hpu => ?_
      · rw [getElem?_afterTurn hk, if_neg ?_]
        · exact hju
        · rintro rfl
          rw [hk] at hju
          cases hju
          exact hu.not_isCopy hpu
      · rw [getElem?_afterTurn hk] at hju
        split_ifs at hju
        · cases hju
          exact absurd hpu hu.not_isCopy
        · exact .inl hju

theorem FannedOut.step (hA : A.Lawful) (h : FannedOut A H pkt r)
    (ha : AmongCopies A pkt r a) (hstep : r.step A a = some r') :
    FannedOut A H pkt r' := by
  have hM := step_spec hA hstep
  have hclock : (0 ≤ r'.clock ∧ pyInt r'.clock < 256 ^ timestampLen) := by
    have hold := And.intro h.clock_nonneg h.clock_lt
    cases hM with
    | tick h₁ h₂ => exact ⟨h.clock_nonneg.trans h₁, h₂⟩
    | recv | turn | client | prune => exact hold
  refine
    { sound := hM.sound hA h.sound
      clock_nonneg := hclock.1
      clock_lt := hclock.2
      handlers := fun i => ?_
      related := ?_
      entries := fun i s m he => ?_
      copies := h.copies_step hm hA ha hM
      before := h.before_step hm hA ha hM hstep
      after := h.after_step hm hA ha hM }
  · rw [(hM.writes hA h.sound i).msgHandlers]
    · exact h.handlers i
    · intro x hx
      cases hx with
      | handler => exact ha.addMsgHandler _ _ rfl
  · cases hM with
    | tick => exact h.related
    | client => exact h.related
    | prune => exact h.related
    | @recv i topic payload' withId pc hpc =>
      intro t ht
      rcases List.mem_append.mp ht with ht | ht
      · exact h.related t ht
      · obtain rfl := List.mem_singleton.mp ht
        exact ha.recv i topic payload' withId rfl
    | @turn k res t pc c recv calls hk hT =>
      intro t' ht'
      obtain ht' | rfl := mem_tasks_afterTurn hk ht'
      · exact h.related t' ht'
      · exact h.related t (List.mem_of_getElem? hk)
  · obtain ⟨h₁, h₂, -⟩ := h.entries_step hm hA ha hM he
    exact ⟨h₁, h₂⟩

end Step

/-- Fan-out exactly once, every copy acked: when all copies of a message are handled and at least
one was not dropped, every handler has been called once, and every client that processed a copy
holds one ack, addressed to the sender. -/
theorem fan_out_exactly_once (hA : A.Lawful) (hm : pkt.msgType = MsgEnum.msg.value)
    {r₀ : Router KP ι} {as : List (Action ι)} (h₀ : Unseen A H pkt r₀)
    (has : Machine.Meets (step A) (AmongCopies A pkt) r₀ as)
    (hrun : Machine.run (step A) r₀ as = some r)
    (hfin : ∀ t ∈ r.tasks, IsCopy A pkt t.payload → t.pc.finished = true) :
    ((∃ t ∈ r.tasks, IsCopy A pkt t.payload ∧ t.pc.processed = true) →
      ∀ x, (r.callsOf pkt).count x = if x ∈ H.toList then 1 else 0) ∧
    ∀ t ∈ r.tasks, IsCopy A pkt t.payload → t.pc.processed = true →
      ∃ m, (r.clients t.client).entry .msgack pkt.queueIdHex pkt.seqNo = some m ∧
        m.destPkHex = pkt.srcPkHex ∧
        ∀ s m', (r.clients t.client).entry .msgack pkt.queueIdHex s = some m' →
          s = pkt.seqNo ∧ m' = m := by
  have h : FannedOut A H pkt r :=
    Machine.run_invariant (fun r a r' h ha hs => h.step hm hA ha hs) h₀.fannedOut has hrun
  constructor
  · rintro ⟨t, ht, hpt, hpc⟩
    have hs : r.recvMsgIds.contains (A.msgHash pkt.msg) = true := by
      by_contra hn
      have he := (h.before (Bool.eq_false_of_not_eq_true hn)).2.1 t ht hpt
      rw [TaskPc.early_eq_false hpc] at he
      cases he
    obtain ⟨k₀, t₀, hk₀, hp₀, ho, -⟩ := h.after hs
    have hf := hfin t₀ (List.mem_of_getElem? hk₀) hp₀
    rw [TaskPc.todo_eq_nil (TaskPc.calling_of_finished hf), List.append_nil] at ho
    intro x
    rw [ho.count_eq, H.nodup.count]
  · intro t ht hpt hpc
    have hc := h.copies t ht hpt
    have he : ((r.clients t.client).entry .msgack pkt.queueIdHex pkt.seqNo).isSome := by
      cases hpc' : t.pc with
      | done => rw [hpc'] at hc; exact hc
      | raised => rw [hpc'] at hc; exact hc
      | _ => rw [hpc'] at hpc; cases hpc
    obtain ⟨m, hm'⟩ := Option.isSome_iff_exists.mp he
    refine ⟨m, hm', (h.entries _ _ _ hm').2, fun s m' hs => ?_⟩
    obtain ⟨rfl, -⟩ := h.entries _ _ _ hs
    rw [hm'] at hs
    exact ⟨rfl, (Option.some.inj hs).symm⟩

def Plain (A : Aio KP) (pkt : AppPacket) : Action ι → Prop
  | .recv _ _ payload _ => IsCopy A pkt payload
  | .resume _ (.ok _) | .tick _ => True
  | _ => False

theorem AmongCopies.of_plain (hA : A.Lawful) (h : Plain A pkt a) (r : Router KP ι) :
    AmongCopies A pkt r a where
  recv i topic payload' withId he := by subst he; exact .inl h
  queueMsg i rnd msg dest q s he := by subst he; exact h.elim
  dequeueMsg i q s he := by subst he; exact h.elim
  addMsgHandler i x he := by subst he; exact h.elim
  returns k e t he := by subst he; exact h.elim
  noPruning r' hs id hid := by
    cases step_spec hA hs with
    | tick => exact hid
    | recv => exact hid
    | client => exact hid
    | prune => exact h.elim
    | turn hk hT =>
      cases hT with
      | first | unheard =>
        change (PyDict.set _ _ _).contains id = true
        rw [PyDict.contains_set, hid, Bool.or_true]
      | _ => exact hid

open Concrete

/-- The copy the sender signed at `now`. -/
def hello (now : ℚ) : Bytes := signedBy 7 now (queueId 'a') 0 .msg "hello"

def helloPacket : AppPacket := packet 7 100 (queueId 'a') 0 .msg "hello"

theorem hello_isCopy : ∀ x ∈ [hello 100, hello 101], IsCopy concrete helloPacket x := by
  simp only [List.forall_mem_cons, List.not_mem_nil, false_implies, implies_true, and_true]
  exact ⟨⟨packet 7 100 (queueId 'a') 0 .msg "hello", by decide +kernel, by decide +kernel⟩,
    ⟨packet 7 101 (queueId 'a') 0 .msg "hello", by decide +kernel, by decide +kernel⟩⟩

def race : List (Action Bool) :=
  [.recv true (concrete.pkHex 1) (hello 100) true, .recv false (concrete.pkHex 1) (hello 101) false,
    .recv true (concrete.pkHex 1) (hello 100) false] ++
    [0, 0, 1, 1, 2, 0, 2, 1, 0, 2, 1, 1].map fun k => .resume k (.ok 0)

theorem fan_out_exactly_once_race : ∃ r,
    Machine.run (step concrete) (connected 1 ⟨[5, 6], by decide⟩ 101) race = some r ∧
    (∀ x, (r.callsOf helloPacket).count x = if x ∈ [5, 6] then 1 else 0) ∧
    ∀ i, ∃ m, (r.clients i).entry .msgack (queueId 'a') 0 = some m ∧
      m.destPkHex = concrete.pkHex 7 := by
  obtain ⟨r, hr, hd⟩ := Machine.exists_run_of_any (step concrete)
    (connected 1 ⟨[5, 6], by decide⟩ 101) race
    (fun r => decide ((∀ t ∈ r.tasks, t.pc.finished = true) ∧
      ∀ i, ∃ t ∈ r.tasks, t.client = i ∧ t.payload ∈ [hello 100, hello 101] ∧
        t.pc.processed = true)) (by decide +kernel)
  obtain ⟨hfin, hproc⟩ := of_decide_eq_true hd
  have h₀ : Unseen concrete ⟨[5, 6], by decide⟩ helloPacket
      (connected 1 ⟨[5, 6], by decide⟩ 101 : Router ℕ Bool) :=
    { sound := (fresh_connected _ _ (by norm_num) (by decide +kernel)).sound
      clock_nonneg := by norm_num [connected]
      clock_lt := by decide +kernel
      handlers := fun i => .refl _
      entries := fun i s => rfl
      content := rfl
      tasks := fun t ht => nomatch ht
      log := fun v hv => nomatch hv }
  have hplain : ∀ a ∈ race, Plain concrete helloPacket a := by
    simp only [race, List.map_cons, List.map_nil, List.cons_append, List.nil_append,
      List.forall_mem_cons, List.not_mem_nil, false_implies, implies_true, Plain, and_true]
    exact ⟨hello_isCopy _ (by simp), hello_isCopy _ (by simp), hello_isCopy _ (by simp)⟩
  obtain ⟨hcalls, hacks⟩ := fan_out_exactly_once concrete_lawful rfl h₀
    (Machine.meets_of_mem (fun a ha s => .of_plain concrete_lawful (hplain a ha) s) _) hr
    fun t ht _ => hfin t ht
  refine ⟨r, hr, ?_, fun i => ?_⟩
  · obtain ⟨t, ht, -, h₁, h₂⟩ := hproc true
    exact hcalls ⟨t, ht, hello_isCopy _ h₁, h₂⟩
  · obtain ⟨t, ht, rfl, h₁, h₂⟩ := hproc i
    obtain ⟨m, hm, hd, -⟩ := hacks t ht (hello_isCopy _ h₁) h₂
    exact ⟨m, hm, hd⟩

/-- The first handler called with the message fails, and the copy on the other client comes to the
check afterwards. -/
def failing : List (Action Bool) :=
  [.recv true (concrete.pkHex 1) (hello 100) false,
    .recv false (concrete.pkHex 1) (hello 101) false, .resume 0 (.ok 0), .resume 0 (.ok 0),
    .resume 0 (.error (.typeError "handler")), .resume 1 (.ok 0), .resume 1 (.ok 0), .resume 1 (.ok 0)]

theorem not_fan_out_exactly_once : ∃ r,
    Machine.run (step concrete) (connected 1 ⟨[5, 6], by decide⟩ 101) failing = some r ∧
    (∀ t ∈ r.tasks, t.pc.finished = true) ∧
    ((r.clients false).entry .msgack (queueId 'a') 0).isSome ∧ r.callsOf helloPacket = [5] := by
  obtain ⟨r, hr, hd⟩ := Machine.exists_run_of_any (step concrete)
    (connected 1 ⟨[5, 6], by decide⟩ 101) failing
    (fun r => decide ((∀ t ∈ r.tasks, t.pc.finished = true) ∧
      ((r.clients false).entry .msgack (queueId 'a') 0).isSome ∧ r.callsOf helloPacket = [5]))
    (by decide +kernel)
  exact ⟨r, hr, of_decide_eq_true hd⟩

end Router

end Sidewire
