import Sidewire.Mqtt.Operations
import Sidewire.Router.Basic

/-! # The turns of a task

What the handling of one PUBLISH may do from one `await` to the next: the cases
of a turn, the causes for which it writes to its client, and what the position
of a task says about the packet it handles.
-/

namespace Sidewire

def TaskPc.addressed : TaskPc → Bool
  | .puback | .dropped _ => false
  | _ => true

def TaskPc.todo : TaskPc → List ℕ
  | .handling _ todo _ => todo
  | _ => []

def TaskPc.calling : TaskPc → Bool
  | .handling _ _ _ => true
  | _ => false

def TaskPc.early : TaskPc → Bool
  | .puback | .verifying | .hashing _ | .dropped _ => true
  | _ => false

def TaskPc.processed : TaskPc → Bool
  | .done | .raised _ => true
  | _ => false

def TaskPc.finished : TaskPc → Bool
  | .dropped _ | .done | .raised _ => true
  | _ => false

theorem TaskPc.early_eq_false {pc : TaskPc} (h : pc.processed = true) : pc.early = false := by
  cases pc <;> first | rfl | cases h

theorem TaskPc.todo_eq_nil {pc : TaskPc} (h : pc.calling = false) : pc.todo = [] := by
  cases pc <;> first | rfl | cases h

theorem TaskPc.calling_of_finished {pc : TaskPc} (h : pc.finished = true) :
    pc.calling = false := by
  cases pc <;> first | rfl | cases h

theorem TaskPc.calling_of_early {pc : TaskPc} (h : pc.early = true) : pc.calling = false := by
  cases pc <;> first | rfl | cases h

theorem TaskPc.addressed_of_calling {pc : TaskPc} (h : pc.calling = true) :
    pc.addressed = true := by
  cases pc <;> first | rfl | cases h

/-- What the position of a task says about the packet it handles. -/
def TaskPc.Holds {KP : Type} (A : Aio KP) (payload : Bytes) : TaskPc → Prop
  | .hashing pkt | .handling pkt _ _ =>
    AppPacket.unpack A payload = .ok (some pkt) ∧ pkt.msgType = MsgEnum.msg.value
  | .signing pkt s signed =>
    (AppPacket.unpack A payload = .ok (some pkt) ∧ pkt.msgType = MsgEnum.msg.value) ∧
      s = pkt.seqNo ∧ ∃ now, AppPacket.Signed A now ⟨pkt.queueIdHex, s, .msgack, .str "ack"⟩
        (A.toB (.str "ack")) signed
  | _ => True

namespace Router

open Exec MQTTClient

variable {KP ι : Type} {A : Aio KP} {r r' : Router KP ι} {k : ℕ} {res : Except PyExc ℕ}
  {t : Task ι} {i : ι} {a : Action ι} {pkt : AppPacket} {todo : List ℕ} {size : ℕ} {s : ℤ}
  {signed : Bytes} {pc : TaskPc} {c : MQTTClient KP} {recv : PyDict String ℚ}
  {calls : List (ℕ × AppPacket)}

def checking (r : Router KP ι) (k : ℕ) : Option AppPacket :=
  match r.tasks[k]? with
  | some t =>
    match t.pc with
    | .hashing pkt => some pkt
    | _ => none
  | none => none

theorem mem_checking (h : pkt ∈ r.checking k) : ∃ t, r.tasks[k]? = some t ∧ t.pc = .hashing pkt := by
  unfold checking at h
  split at h
  · rename_i t hk
    split at h
    · rename_i hpc
      cases h
      exact ⟨t, hk, hpc⟩
    · cases h
  · cases h

inductive AckStarts (A : Aio KP) (now : ℚ) (pkt : AppPacket) (c : MQTTClient KP) :
    TaskPc → MQTTClient KP → Prop
  | signing {signed : Bytes} {c' : MQTTClient KP} (hw : ∀ P, Writes A P c c')
      (hs : AppPacket.Signed A now ⟨pkt.queueIdHex, pkt.seqNo, .msgack, .str "ack"⟩
        (A.toB (.str "ack")) signed)
      (hq : (c'.queue .msgack pkt.queueIdHex).isSome) :
      AckStarts A now pkt c (.signing pkt pkt.seqNo signed) c'
  | failed {pc : TaskPc} {c' : MQTTClient KP} {e : PyExc} (hw : ∀ P, Writes A P c c')
      (hpc : pc = .done ∨ pc = .raised e)
      (he : pkt.queueIdHex.length = 64 → pkt.srcPkHex.length = 66 →
        AppPacket.packAsyncBegin A now ⟨pkt.queueIdHex, pkt.seqNo, .msgack, .str "ack"⟩ =
          .error e) : AckStarts A now pkt c pc c'

/-- One turn of a task: its next position, its client, the shared table, and the handlers it
calls. -/
inductive Turn (A : Aio KP) (r : Router KP ι) (t : Task ι) : Except PyExc ℕ →
    TaskPc → MQTTClient KP → PyDict String ℚ → List (ℕ × AppPacket) → Prop
  | topic {rnd : ℕ} (h : t.pc = .puback) :
      Turn A r t (.ok rnd) (r.checkTopic A t.client t.topic) (r.clients t.client) r.recvMsgIds []
  | drop {rnd : ℕ} (h : t.pc = .verifying) (e : Option PyExc) :
      Turn A r t (.ok rnd) (.dropped e) (r.clients t.client) r.recvMsgIds []
  | again {rnd : ℕ} (h : t.pc = .verifying) {pkt : AppPacket} {pc : TaskPc}
      (hp : AppPacket.unpack A t.payload = .ok (some pkt)) (hm : pkt.msgType = MsgEnum.msg.value)
      (ho : (r.clients t.client).tooOld r.clock pkt = false)
      (hs : ((r.clients t.client).entry .msgack pkt.queueIdHex pkt.seqNo).isSome)
      (hpc : pc = .sending ∨ ∃ e, pc = .raised e) :
      Turn A r t (.ok rnd) pc (final (processAppMsgBegin A pkt (r.clients t.client))) r.recvMsgIds []
  | fresh {rnd : ℕ} (h : t.pc = .verifying) {pkt : AppPacket}
      (hp : AppPacket.unpack A t.payload = .ok (some pkt)) (hm : pkt.msgType = MsgEnum.msg.value)
      (ho : (r.clients t.client).tooOld r.clock pkt = false)
      (hn : (r.clients t.client).entry .msgack pkt.queueIdHex pkt.seqNo = none) :
      Turn A r t (.ok rnd) (.hashing pkt) ((r.clients t.client).dropOldAcks pkt.queueIdHex pkt.seqNo)
        r.recvMsgIds []
  | ack {rnd : ℕ} (h : t.pc = .verifying) {pkt : AppPacket}
      (hp : AppPacket.unpack A t.payload = .ok (some pkt))
      (hm : pkt.msgType = MsgEnum.msgack.value) :
      Turn A r t (.ok rnd) .done ((r.clients t.client).processAppAck pkt) r.recvMsgIds []
  | probe {rnd : ℕ} (h : t.pc = .verifying) {pkt : AppPacket} {pc : TaskPc}
      (hp : AppPacket.unpack A t.payload = .ok (some pkt))
      (hm : pkt.msgType = MsgEnum.probe.value) (hpc : pc = .done ∨ ∃ e, pc = .raised e) :
      Turn A r t (.ok rnd) pc
        (final (MQTTClient.processAppProbe A rnd r.clock pkt (.ok ()) (r.clients t.client)))
        r.recvMsgIds []
  | seen {rnd : ℕ} {pkt : AppPacket} (h : t.pc = .hashing pkt)
      (hs : r.recvMsgIds.contains (A.msgHash pkt.msg) = true) {pc : TaskPc} {c : MQTTClient KP}
      (ha : AckStarts A r.clock pkt (r.clients t.client) pc c) :
      Turn A r t (.ok rnd) pc c r.recvMsgIds []
  | first {rnd : ℕ} {pkt : AppPacket} (h : t.pc = .hashing pkt)
      (hn : r.recvMsgIds.contains (A.msgHash pkt.msg) = false) {x : ℕ} {todo : List ℕ}
      (hl : (r.clients t.client).msgHandlers.toList = x :: todo) :
      Turn A r t (.ok rnd) (.handling pkt todo (r.clients t.client).msgHandlers.size)
        (r.clients t.client) (r.recvMsgIds.set (A.msgHash pkt.msg) r.clock) [(x, pkt)]
  | unheard {rnd : ℕ} {pkt : AppPacket} (h : t.pc = .hashing pkt)
      (hn : r.recvMsgIds.contains (A.msgHash pkt.msg) = false)
      (hl : (r.clients t.client).msgHandlers.toList = []) {pc : TaskPc} {c : MQTTClient KP}
      (ha : AckStarts A r.clock pkt (r.clients t.client) pc c) :
      Turn A r t (.ok rnd) pc c (r.recvMsgIds.set (A.msgHash pkt.msg) r.clock) []
  | next {rnd : ℕ} {pkt : AppPacket} {x : ℕ} {todo : List ℕ} {size : ℕ}
      (h : t.pc = .handling pkt (x :: todo) size)
      (hl : (r.clients t.client).msgHandlers.size = size) :
      Turn A r t (.ok rnd) (.handling pkt todo size) (r.clients t.client) r.recvMsgIds [(x, pkt)]
  | changed {rnd : ℕ} {pkt : AppPacket} {todo : List ℕ} {size : ℕ}
      (h : t.pc = .handling pkt todo size)
      (hl : (r.clients t.client).msgHandlers.size ≠ size) (e : PyExc) :
      Turn A r t (.ok rnd) (.raised e) (r.clients t.client) r.recvMsgIds []
  | last {rnd : ℕ} {pkt : AppPacket} {size : ℕ} (h : t.pc = .handling pkt [] size) {pc : TaskPc}
      {c : MQTTClient KP} (ha : AckStarts A r.clock pkt (r.clients t.client) pc c) :
      Turn A r t (.ok rnd) pc c r.recvMsgIds []
  | signed {rnd : ℕ} {pkt : AppPacket} {s : ℤ} {signed : Bytes}
      (h : t.pc = .signing pkt s signed) {pc : TaskPc} (hpc : pc = .done ∨ ∃ e, pc = .raised e) :
      Turn A r t (.ok rnd) pc
        (final (queueMsgAsyncEnd A rnd r.clock (.str "ack") pkt.srcPkHex pkt.queueIdHex .msgack s
          signed (r.clients t.client))) r.recvMsgIds []
  | sent {rnd : ℕ} (h : t.pc = .sending) :
      Turn A r t (.ok rnd) .done (r.clients t.client) r.recvMsgIds []
  | failed {e : PyExc} {pc : TaskPc} (h : t.pc.failed A e = some pc) :
      Turn A r t (.error e) pc (r.clients t.client) r.recvMsgIds []

inductive Cause (A : Aio KP) (r : Router KP ι) (i : ι) : Action ι → Write → Prop
  | queued {rnd : ℕ} {msg : PyMsg} {dest q : String} {ty : MsgEnum} {seqNo : Option ℤ} {out : Bytes}
      {ack : ℕ}
      (hn : (r.clients i).entry ty q (seqNo.getD ((r.clients i).nextSeqNo ty q)) = none) :
      Cause A r i (.queueMsg i rnd msg dest q ty seqNo)
        (.register ⟨ty, q, seqNo.getD ((r.clients i).nextSeqNo ty q), dest, msg, out, ack⟩)
  | probed {rnd : ℕ} {dest q : String} {s : ℤ} {out : Bytes} {ack : ℕ} :
      Cause A r i (.sendProbe i rnd dest q)
        (.register ⟨.probe, q, s, dest, .str "", out, ack⟩)
  | acked {k rnd : ℕ} {t : Task ι} {pkt : AppPacket} {signed out : Bytes} {ack : ℕ}
      (hk : r.tasks[k]? = some t) (hi : t.client = i)
      (hpc : t.pc = .signing pkt pkt.seqNo signed)
      (hn : (r.clients i).entry .msgack pkt.queueIdHex pkt.seqNo = none) :
      Cause A r i (.resume k (.ok rnd))
        (.register ⟨.msgack, pkt.queueIdHex, pkt.seqNo, pkt.srcPkHex, .str "ack", out, ack⟩)
  | probeAcked {k rnd : ℕ} {t : Task ι} {pkt : AppPacket} {out : Bytes} {ack : ℕ}
      (hk : r.tasks[k]? = some t) (hi : t.client = i) (hpc : t.pc = .verifying)
      (hp : AppPacket.unpack A t.payload = .ok (some pkt)) (hm : pkt.msgType = MsgEnum.probe.value)
      (hn : (r.clients i).entry .msgack pkt.queueIdHex pkt.seqNo = none) :
      Cause A r i (.resume k (.ok rnd))
        (.register ⟨.msgack, pkt.queueIdHex, pkt.seqNo, pkt.srcPkHex, .str "ack", out, ack⟩)
  | outdated {k rnd : ℕ} {t : Task ι} {pkt : AppPacket} {s : ℤ}
      (hk : r.tasks[k]? = some t) (hi : t.client = i) (hpc : t.pc = .verifying)
      (hp : AppPacket.unpack A t.payload = .ok (some pkt)) (hm : pkt.msgType = MsgEnum.msg.value)
      (hs : s < pkt.seqNo) : Cause A r i (.resume k (.ok rnd)) (.forget .msgack pkt.queueIdHex s)
  | marked {k rnd : ℕ} {t : Task ι} {pkt : AppPacket} {ty : MsgEnum} {m : Meta}
      (hk : r.tasks[k]? = some t) (hi : t.client = i) (hpc : t.pc = .verifying)
      (hp : AppPacket.unpack A t.payload = .ok (some pkt)) (hm : pkt.msgType = MsgEnum.msgack.value)
      (hty : ty = .msg ∨ ty = .probe)
      (he : (r.clients i).entry ty pkt.queueIdHex pkt.seqNo = some m)
      (hd : m.destPkHex = pkt.srcPkHex) :
      Cause A r i (.resume k (.ok rnd)) (.ack ty pkt.queueIdHex pkt.seqNo m)
  | probeForgotten {k rnd : ℕ} {t : Task ι} {pkt : AppPacket}
      (hk : r.tasks[k]? = some t) (hi : t.client = i) (hpc : t.pc = .verifying)
      (hp : AppPacket.unpack A t.payload = .ok (some pkt))
      (hm : pkt.msgType = MsgEnum.msgack.value) :
      Cause A r i (.resume k (.ok rnd)) (.forget .probe pkt.queueIdHex pkt.seqNo)
  | probeUnlinked {k rnd : ℕ} {t : Task ι} {pkt : AppPacket}
      (hk : r.tasks[k]? = some t) (hi : t.client = i) (hpc : t.pc = .verifying)
      (hp : AppPacket.unpack A t.payload = .ok (some pkt))
      (hm : pkt.msgType = MsgEnum.msgack.value) :
      Cause A r i (.resume k (.ok rnd)) (.unlink .probe pkt.queueIdHex)
  | dequeued {q : String} {ty : MsgEnum} :
      Cause A r i (.dequeueMsg i q none ty) (.unlink ty q)
  | disabled {q : String} {s : ℤ} {ty : MsgEnum} {m : Meta}
      (he : (r.clients i).entry ty q s = some m) :
      Cause A r i (.dequeueMsg i q (some s) ty) (.resolve m)
  | handler {h : ℕ} : Cause A r i (.addMsgHandler i h) (.addHandler h)

/-- What holds of a router at all times: the clients share its key, every client's messages are
its own, and tasks handle the packet they received. -/
structure Sound (A : Aio KP) (r : Router KP ι) : Prop where
  kp : ∀ i, (r.clients i).kp = r.kp
  tracked : ∀ i, Tracked A (r.clients i)
  holds : ∀ t ∈ r.tasks, t.pc.Holds A t.payload
  addressed : ∀ t ∈ r.tasks, t.pc.addressed = true →
    A.hToB t.topic = .ok (A.compactPublicKey r.kp)

theorem failed_cases {e : PyExc} {p : TaskPc} (h : p.failed A e = some pc) :
    (p = .puback ∧ pc = .dropped (some e)) ∨
      (p.calling = true ∨ p = .sending) ∧ A.asyncWrapErrors e = false ∧ pc = .raised e := by
  unfold TaskPc.failed at h
  split at h
  · cases h
    exact .inl ⟨rfl, rfl⟩
  · split_ifs at h with he
    cases h
    exact .inr ⟨.inl rfl, Bool.eq_false_of_not_eq_true he, rfl⟩
  · split_ifs at h with he
    cases h
    exact .inr ⟨.inr rfl, Bool.eq_false_of_not_eq_true he, rfl⟩
  · cases h

theorem AckStarts.writes {now : ℚ} {c c' : MQTTClient KP} (h : AckStarts A now pkt c pc c')
    (P : Write → Prop) : Writes A P c c' := by
  cases h with
  | signing hw => exact hw P
  | failed hw => exact hw P

theorem Turn.writes (hA : A.Lawful) (hs : Sound A r) (hk : r.tasks[k]? = some t)
    (h : Turn A r t res pc c recv calls) :
    Writes A (Cause A r t.client (.resume k res)) (r.clients t.client) c := by
  cases h with
  | topic | drop | first | next | changed | sent | failed => exact .refl _
  | again h hp hm =>
    exact writes_processAppMsgBegin fun s' hs' => .outdated hk rfl h hp hm hs'
  | fresh h hp hm => exact writes_dropOldAcks fun s' hs' => .outdated hk rfl h hp hm hs'
  | ack h hp hm =>
    exact writes_processAppAck (hs.tracked _)
      (fun ty m he hd hty => .marked hk rfl h hp hm hty he hd)
      (.probeForgotten hk rfl h hp hm) (.probeUnlinked hk rfl h hp hm)
  | probe h hp hm =>
    exact writes_processAppProbe hA fun hn out ack => .probeAcked hk rfl h hp hm hn
  | seen h hr ha => exact ha.writes _
  | unheard h hn hl ha => exact ha.writes _
  | last h ha => exact ha.writes _
  | signed h hpc =>
    have hh := hs.holds t (List.mem_of_getElem? hk)
    rw [h] at hh
    obtain ⟨-, rfl, hsig⟩ := hh
    exact writes_queueMsgAsyncEnd hsig fun hn ack => .acked hk rfl h hn

theorem AckStarts.holds {now : ℚ} {c c' : MQTTClient KP} {payload : Bytes}
    (h : AckStarts A now pkt c pc c') (hp : AppPacket.unpack A payload = .ok (some pkt))
    (hm : pkt.msgType = MsgEnum.msg.value) : pc.Holds A payload := by
  cases h with
  | signing hw hs hq => exact ⟨⟨hp, hm⟩, rfl, now, hs⟩
  | failed hw hpc he => rcases hpc with rfl | rfl <;> trivial

theorem Turn.holds (hs : t.pc.Holds A t.payload) (h : Turn A r t res pc c recv calls) :
    pc.Holds A t.payload := by
  cases h with
  | topic h =>
    unfold checkTopic
    split
    · trivial
    · split_ifs <;> trivial
  | drop | sent | changed => trivial
  | again h hp hm ho he hpc => obtain rfl | ⟨e, rfl⟩ := hpc <;> trivial
  | fresh h hp hm => exact ⟨hp, hm⟩
  | ack => trivial
  | probe h hp hm hpc => obtain rfl | ⟨e, rfl⟩ := hpc <;> trivial
  | seen h hr ha => rw [h] at hs; exact ha.holds hs.1 hs.2
  | first h => rw [h] at hs; exact hs
  | unheard h hn hl ha => rw [h] at hs; exact ha.holds hs.1 hs.2
  | next h => rw [h] at hs; exact hs
  | last h ha => rw [h] at hs; exact ha.holds hs.1 hs.2
  | signed h hpc => obtain rfl | ⟨e, rfl⟩ := hpc <;> trivial
  | failed h => obtain ⟨-, rfl⟩ | ⟨-, -, rfl⟩ := failed_cases h <;> trivial

theorem checkTopic_addressed {topic : String} (h : (r.checkTopic A i topic).addressed = true) :
    A.hToB topic = .ok (A.compactPublicKey (r.clients i).kp) := by
  unfold checkTopic at h
  cases ht : A.hToB topic with
  | error e => rw [ht] at h; cases h
  | ok b =>
    rw [ht] at h
    simp only at h
    split_ifs at h with hb
    · cases h
    · rw [not_not.mp hb]

theorem Turn.addressed (h : Turn A r t res pc c recv calls) (hp : pc.addressed = true) :
    t.pc.addressed = true ∨
      A.hToB t.topic = .ok (A.compactPublicKey (r.clients t.client).kp) := by
  cases h with
  | topic h => exact .inr (checkTopic_addressed hp)
  | drop => cases hp
  | again h | fresh h | ack h | probe h | seen h | first h | unheard h | next h | changed h
  | last h | signed h | sent h => rw [h]; exact .inl rfl
  | failed h =>
    obtain ⟨-, rfl⟩ | ⟨hc | hs, -⟩ := failed_cases h
    · cases hp
    · exact .inl (TaskPc.addressed_of_calling hc)
    · rw [hs]
      exact .inl rfl

theorem checkTopic_pc (r : Router KP ι) (i : ι) (topic : String) :
    (∃ e, r.checkTopic A i topic = .dropped e) ∨ r.checkTopic A i topic = .verifying := by
  unfold checkTopic
  split
  · exact .inl ⟨_, rfl⟩
  · split_ifs
    · exact .inl ⟨_, rfl⟩
    · exact .inr rfl

theorem Turn.calls_pkt (h : Turn A r t res pc c recv calls) (hs : t.pc.Holds A t.payload) :
    ∀ x ∈ calls, AppPacket.unpack A t.payload = .ok (some x.2) := by
  intro x hx
  cases h with
  | first h => rw [h] at hs; rw [List.mem_singleton.mp hx]; exact hs.1
  | next h => rw [h] at hs; rw [List.mem_singleton.mp hx]; exact hs.1
  | _ => cases hx

theorem Turn.recv_cases (h : Turn A r t res pc c recv calls) (hs : t.pc.Holds A t.payload) :
    recv = r.recvMsgIds ∨ ∃ pkt', AppPacket.unpack A t.payload = .ok (some pkt') ∧
      pkt'.msgType = MsgEnum.msg.value ∧
      r.recvMsgIds.contains (A.msgHash pkt'.msg) = false ∧
      recv = r.recvMsgIds.set (A.msgHash pkt'.msg) r.clock := by
  cases h with
  | first h hn => rw [h] at hs; exact .inr ⟨_, hs.1, hs.2, hn, rfl⟩
  | unheard h hn => rw [h] at hs; exact .inr ⟨_, hs.1, hs.2, hn, rfl⟩
  | _ => exact .inl rfl

theorem Turn.of_not_calling (h : Turn A r t res pc c recv calls) (hc : t.pc.calling = false)
    (hs : ∀ pkt', t.pc = .hashing pkt' → r.recvMsgIds.contains (A.msgHash pkt'.msg) = true) :
    calls = [] ∧ pc.todo = [] ∧ pc.calling = false ∧ recv = r.recvMsgIds := by
  have hack : ∀ {now pkt' c c'}, AckStarts A now pkt' c pc c' →
      pc.todo = [] ∧ pc.calling = false := by
    intro now pkt' c c' ha
    cases ha with
    | signing => exact ⟨rfl, rfl⟩
    | failed hw hpc he => rcases hpc with rfl | rfl <;> exact ⟨rfl, rfl⟩
  cases h with
  | topic =>
    obtain ⟨e, he⟩ | he := checkTopic_pc (A := A) r t.client t.topic <;>
    · rw [he]; exact ⟨rfl, rfl, rfl, rfl⟩
  | drop | fresh | ack | sent => exact ⟨rfl, rfl, rfl, rfl⟩
  | again h hp hm ho he hpc => obtain rfl | ⟨e, rfl⟩ := hpc <;> exact ⟨rfl, rfl, rfl, rfl⟩
  | probe h hp hm hpc => obtain rfl | ⟨e, rfl⟩ := hpc <;> exact ⟨rfl, rfl, rfl, rfl⟩
  | seen h hr ha => exact ⟨rfl, (hack ha).1, (hack ha).2, rfl⟩
  | first h hn => rw [hs _ h] at hn; cases hn
  | unheard h hn => rw [hs _ h] at hn; cases hn
  | next h => rw [h] at hc; cases hc
  | changed h => rw [h] at hc; cases hc
  | last h => rw [h] at hc; cases hc
  | signed h hpc => obtain rfl | ⟨e, rfl⟩ := hpc <;> exact ⟨rfl, rfl, rfl, rfl⟩
  | failed h => obtain ⟨-, rfl⟩ | ⟨-, -, rfl⟩ := failed_cases h <;> exact ⟨rfl, rfl, rfl, rfl⟩

theorem AckStarts.pc_cases {now : ℚ} {c c' : MQTTClient KP} (h : AckStarts A now pkt c pc c') :
    pc.calling = false ∧ pc.early = false := by
  cases h with
  | signing => exact ⟨rfl, rfl⟩
  | failed hw hpc he => rcases hpc with rfl | rfl <;> exact ⟨rfl, rfl⟩

theorem Turn.calls_cases (h : Turn A r t res pc c recv calls) :
    (calls = [] ∧ pc.calling = false ∧
      (recv = r.recvMsgIds ∨ (r.clients t.client).msgHandlers.toList = [])) ∨
    (∃ pkt x todo, t.pc = .hashing pkt ∧ r.recvMsgIds.contains (A.msgHash pkt.msg) = false ∧
      (r.clients t.client).msgHandlers.toList = x :: todo ∧ calls = [(x, pkt)] ∧
      pc = .handling pkt todo (r.clients t.client).msgHandlers.size ∧
      recv = r.recvMsgIds.set (A.msgHash pkt.msg) r.clock) ∨
    ∃ pkt x todo size, t.pc = .handling pkt (x :: todo) size ∧ calls = [(x, pkt)] ∧
      pc = .handling pkt todo size ∧ recv = r.recvMsgIds := by
  cases h with
  | topic =>
    obtain ⟨e, he⟩ | he := checkTopic_pc (A := A) r t.client t.topic <;>
    · rw [he]; exact .inl ⟨rfl, rfl, .inl rfl⟩
  | drop | fresh | ack | changed | sent => exact .inl ⟨rfl, rfl, .inl rfl⟩
  | again h hp hm ho he hpc => obtain rfl | ⟨e, rfl⟩ := hpc <;> exact .inl ⟨rfl, rfl, .inl rfl⟩
  | probe h hp hm hpc => obtain rfl | ⟨e, rfl⟩ := hpc <;> exact .inl ⟨rfl, rfl, .inl rfl⟩
  | seen h hr ha => exact .inl ⟨rfl, ha.pc_cases.1, .inl rfl⟩
  | first h hn hl => exact .inr (.inl ⟨_, _, _, h, hn, hl, rfl, rfl, rfl⟩)
  | unheard h hn hl ha => exact .inl ⟨rfl, ha.pc_cases.1, .inr hl⟩
  | next h => exact .inr (.inr ⟨_, _, _, _, h, rfl, rfl, rfl⟩)
  | last h ha => exact .inl ⟨rfl, ha.pc_cases.1, .inl rfl⟩
  | signed h hpc => obtain rfl | ⟨e, rfl⟩ := hpc <;> exact .inl ⟨rfl, rfl, .inl rfl⟩
  | failed h => obtain ⟨-, rfl⟩ | ⟨-, -, rfl⟩ := failed_cases h <;> exact .inl ⟨rfl, rfl, .inl rfl⟩

theorem Turn.early_eq_false (h : Turn A r t res pc c recv calls) (he : t.pc.early = false) :
    pc.early = false := by
  cases h with
  | topic hpc | drop hpc | again hpc | fresh hpc | ack hpc | probe hpc | seen hpc | first hpc
  | unheard hpc => rw [hpc] at he; cases he
  | next | changed | sent => rfl
  | last h ha => exact ha.pc_cases.2
  | signed h hpc => obtain rfl | ⟨e, rfl⟩ := hpc <;> rfl
  | failed h =>
    obtain ⟨hpc, -⟩ | ⟨-, -, rfl⟩ := failed_cases h
    · rw [hpc] at he
      cases he
    · rfl

theorem Fresh.sound (h : Fresh r) : Sound A r where
  kp := h.kp
  tracked i :=
    { entry := fun hm => by simp [entry, queue, h.msgQueues] at hm
      oneShot := fun hm => by simp [entry, queue, h.msgQueues] at hm
      unlinked := fun hd _ => by simp [h.unlinked] at hd
      sent := by simp [h.sent]
      packed := by simp [h.queued]
      appAck_lt := by simp [h.queued]
      nodup := by simp [h.queued]
      resolved := by simp [h.resolved]
      acked := by simp [h.acked] }
  holds := by simp [h.tasks]
  addressed := by simp [h.tasks]

end Router

end Sidewire
