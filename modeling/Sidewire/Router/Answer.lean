import Sidewire.Router.Delivery

/-! # A router that is left alone answers

What becomes of one copy of a message if nothing else happens: the task that
handles it goes through its handlers and registers an ack, and the next copy has
this ack sent. Nothing on the way there uses up the connection or a packet id.
-/

namespace Sidewire

namespace MQTTClient

open Exec

variable {KP : Type} {A : Aio KP} {c d e : MQTTClient KP} {t : MsgEnum} {q : String} {s : ℤ}

structure SameLink (c d : MQTTClient KP) : Prop where
  pipe : d.pipe = c.pipe
  packetIds : d.packetIds = c.packetIds

namespace SameLink

@[refl] theorem refl (c : MQTTClient KP) : SameLink c c := ⟨rfl, rfl⟩

theorem trans (h : SameLink c d) (h' : SameLink d e) : SameLink c e :=
  ⟨h'.pipe.trans h.pipe, h'.packetIds.trans h.packetIds⟩

theorem freeId (h : SameLink c d) (hc : FreeId c) : FreeId d := by
  obtain ⟨pid, h₁, h₂, hf⟩ := hc
  exact ⟨pid, h₁, h₂, by rwa [inFlight, h.packetIds]⟩

theorem ensureQueue (c : MQTTClient KP) (t : MsgEnum) (q : String) :
    SameLink c (c.ensureQueue t q) := by
  unfold MQTTClient.ensureQueue
  split_ifs <;> exact ⟨rfl, rfl⟩

theorem stampSent (c : MQTTClient KP) (id : String) (now : ℚ) : SameLink c (c.stampSent id now) := by
  unfold MQTTClient.stampSent
  split_ifs <;> exact ⟨rfl, rfl⟩

theorem dropOldAcks (c : MQTTClient KP) (q : String) (s : ℤ) : SameLink c (c.dropOldAcks q s) := by
  unfold MQTTClient.dropOldAcks
  split <;> exact ⟨rfl, rfl⟩

theorem orderedAckSendBegin (now : ℚ) (msg : PyMsg) (dest q : String) (t : MsgEnum)
    (seqNo : Option ℤ) (c : MQTTClient KP) :
    SameLink c (final (MQTTClient.orderedAckSendBegin A now msg dest q t seqNo c)) := by
  unfold MQTTClient.orderedAckSendBegin
  cases checkLengths dest q with
  | error e => exact .refl c
  | ok =>
    by_cases ht : t = .msg
    · simp only [ht, if_true, bind_apply, pure_apply, modify_apply, get_apply, final_ok]
      exact (SameLink.stampSent c _ now).trans (.ensureQueue _ .msg q)
    · simp only [ht, if_false, bind_apply, pure_apply, modify_apply, get_apply, final_ok]
      exact .ensureQueue c t q

theorem queueMsgAsyncBegin (now : ℚ) (msg : PyMsg) (dest q : String) (t : MsgEnum)
    (seqNo : Option ℤ) (c : MQTTClient KP) :
    SameLink c (final (MQTTClient.queueMsgAsyncBegin A now msg dest q t seqNo c)) := by
  have h := orderedAckSendBegin (A := A) now msg dest q t seqNo { c with lastSend := some now }
  simp only [MQTTClient.queueMsgAsyncBegin, bind_apply, modify_apply]
  cases hb : MQTTClient.orderedAckSendBegin A now msg dest q t seqNo
      { c with lastSend := some now } with
  | error e d =>
    rw [hb] at h
    exact ⟨h.pipe, h.packetIds⟩
  | ok s d =>
    rw [hb] at h
    simp only [ofExcept_apply]
    cases AppPacket.packAsyncBegin A now ⟨q, s, t, msg⟩ <;> exact ⟨h.pipe, h.packetIds⟩

theorem queueMsgAsyncEnd (rnd : ℕ) (now : ℚ) (msg : PyMsg) (dest q : String) (t : MsgEnum) (s : ℤ)
    (signed : Bytes) (c : MQTTClient KP) :
    SameLink c (final (MQTTClient.queueMsgAsyncEnd A rnd now msg dest q t s signed c)) := by
  simp only [MQTTClient.queueMsgAsyncEnd, bind_apply, get_apply]
  obtain ⟨-, h⟩ | ⟨m, -, h⟩ | ⟨d, -, -, h⟩ := orderedAckSendEnd_spec now msg dest q t s
    (AppPacket.assemble A c.kp rnd signed) c
  · rw [h]; exact .refl c
  · rw [h]; exact .refl c
  · rw [h]; exact ⟨rfl, rfl⟩

end SameLink

end MQTTClient

namespace Router

open Exec MQTTClient

variable {KP ι : Type} [DecidableEq ι] {A : Aio KP} {r r' : Router KP ι} {k rnd : ℕ} {i : ι}
  {t : Task ι} {pkt : AppPacket} {todo : List ℕ} {payload : Bytes}

theorem sameLink_setClient {c : MQTTClient KP} (h : SameLink (r.clients i) c) (j : ι) :
    SameLink (r.clients j) ((r.setClient i c).clients j) := by
  change SameLink (r.clients j) (Function.update r.clients i c j)
  by_cases hj : j = i
  · subst hj
    rwa [Function.update_self]
  · rw [Function.update_of_ne hj]

theorem sameLink_ackBegin (r : Router KP ι) (k : ℕ) (i : ι) (pkt : AppPacket) (j : ι) :
    SameLink (r.clients j) ((r.ackBegin A k i pkt).clients j) := by
  have h := SameLink.queueMsgAsyncBegin (A := A) r.clock (.str "ack") pkt.srcPkHex pkt.queueIdHex
    .msgack (some pkt.seqNo) (r.clients i)
  rw [← final_catchLogged logged] at h
  unfold ackBegin
  split
  all_goals
    rename_i he
    rw [he] at h
    exact sameLink_setClient h j

theorem sameLink_ackEnd (r : Router KP ι) (k : ℕ) (i : ι) (rnd : ℕ) (pkt : AppPacket) (s : ℤ)
    (signed : Bytes) (j : ι) :
    SameLink (r.clients j) ((r.ackEnd A k i rnd pkt s signed).clients j) := by
  have h := SameLink.queueMsgAsyncEnd (A := A) rnd r.clock (.str "ack") pkt.srcPkHex pkt.queueIdHex
    .msgack s signed (r.clients i)
  rw [← final_catchLogged logged] at h
  unfold ackEnd
  split
  all_goals
    rename_i he
    rw [he] at h
    exact sameLink_setClient h j

theorem sameLink_deliver (r : Router KP ι) (k : ℕ) (i : ι) (pkt : AppPacket) (todo : List ℕ)
    (size : ℕ) (j : ι) : SameLink (r.clients j) ((r.deliver A k i pkt todo size).clients j) := by
  unfold deliver
  split_ifs
  · exact .refl _
  · cases todo with
    | nil => exact sameLink_ackBegin r k i pkt j
    | cons x todo => exact .refl _

theorem sameLink_resume {p : TaskPc} (hk : r.tasks[k]? = some t) (hpc : t.pc = p)
    (hp : p.answering = some pkt ∨ p = .hashing pkt) (h : r.resume A k (.ok rnd) = some r') (j : ι) :
    SameLink (r.clients j) (r'.clients j) := by
  obtain ⟨i, topic, payload, pc⟩ := t
  simp only at hpc
  subst hpc
  simp only [resume, hk] at h
  obtain hp | rfl := hp
  · cases pc with
    | handling pkt' todo size =>
      cases h
      exact sameLink_deliver r k i pkt' todo size j
    | signing pkt' s signed =>
      cases h
      exact sameLink_ackEnd r k i rnd pkt' s signed j
    | _ => cases hp
  · cases h
    unfold dedup
    split_ifs
    · exact sameLink_ackBegin r k i pkt j
    · exact sameLink_deliver
        { r with recvMsgIds := r.recvMsgIds.set (A.msgHash pkt.msg) r.clock } k i pkt _ _ j

theorem exists_step_resume (A : Aio KP) (rnd : ℕ) (hrun : r.running = none)
    (hk : r.tasks[k]? = some t) (hf : t.pc.finished = false) :
    ∃ r', Router.step A r (.resume k (.ok rnd)) = some r' := by
  obtain ⟨i, topic, payload, pc⟩ := t
  simp only [Router.step, hrun, act, resume, hk]
  cases pc with
  | verifying =>
    cases AppPacket.unpack A payload with
    | error e => exact ⟨_, rfl⟩
    | ok o => cases o <;> exact ⟨_, rfl⟩
  | puback | hashing | handling | signing | sending => exact ⟨_, rfl⟩
  | dropped | done | raised => cases hf

/-- By its own turns the task gets its client to hold the ack of the message, and the router is
where it was otherwise: at an `await`, at the same time, with its connections. -/
def GetsAck (A : Aio KP) (k : ℕ) (i : ι) (pkt : AppPacket) (r : Router KP ι) : Prop :=
  ∃ m w, Machine.run (Router.step A) r (List.replicate m (.resume k (.ok 0))) = some w ∧
    ((w.clients i).entry .msgack pkt.queueIdHex pkt.seqNo).isSome ∧
    (∀ j, SameLink (r.clients j) (w.clients j)) ∧ w.running = r.running ∧ w.clock = r.clock

omit [DecidableEq ι] in
theorem ackStarts_signing (hA : A.Lawful) (hp : AppPacket.unpack A payload = .ok (some pkt))
    (h₀ : 0 ≤ r.clock) (h₁ : pyInt r.clock < 256 ^ timestampLen) {c c' : MQTTClient KP} {pc : TaskPc}
    (ha : AckStarts A r.clock pkt c pc c') :
    ∃ signed, pc = .signing pkt pkt.seqNo signed ∧ (c'.queue .msgack pkt.queueIdHex).isSome := by
  cases ha with
  | signing hw hs hq => exact ⟨_, rfl, hq⟩
  | failed hw hpc he =>
    have hacc := AppPacket.unpack_spec hp
    have hnow : 0 ≤ pyInt r.clock := by
      rw [pyInt_of_nonneg h₀]
      exact Int.floor_nonneg.mpr h₀
    obtain ⟨signed, hk⟩ := AppPacket.packAsyncBegin_ack_ok hA hacc hnow h₁ (.str "ack")
    rw [he (hacc.length_queueIdHex hA) (hacc.length_srcPkHex hA)] at hk
    cases hk

namespace GetsAck

theorem cons (h : Router.step A r (.resume k (.ok 0)) = some r')
    (hl : ∀ j, SameLink (r.clients j) (r'.clients j)) (hrun : r'.running = r.running)
    (hclock : r'.clock = r.clock) (hr : GetsAck A k i pkt r') : GetsAck A k i pkt r := by
  obtain ⟨m, w, hw, he, hl', hrun', hclock'⟩ := hr
  refine ⟨m + 1, w, ?_, he, fun j => (hl j).trans (hl' j), hrun'.trans hrun, hclock'.trans hclock⟩
  rw [List.replicate_succ]
  exact Machine.run_cons_eq_some.mpr ⟨r', h, hw⟩

theorem of_signing (hrun : r.running = none) (hk : r.tasks[k]? = some t) {signed : Bytes}
    (hpc : t.pc = .signing pkt pkt.seqNo signed)
    (hq : ((r.clients t.client).queue .msgack pkt.queueIdHex).isSome) :
    GetsAck A k t.client pkt r := by
  obtain ⟨r', h⟩ := exists_step_resume A 0 hrun hk (by rw [hpc]; rfl)
  have hl := sameLink_resume hk hpc (.inl rfl) (resume_of_step h)
  obtain ⟨u, pc, c, recv, calls, hk', hT, rfl⟩ := resume_spec (resume_of_step h)
  cases hk.symm.trans hk'
  refine cons h hl rfl rfl ⟨0, _, rfl, ?_, fun j => .refl _, rfl, rfl⟩
  cases hT with
  | signed hu hpc' =>
    cases hpc.symm.trans hu
    obtain ⟨a, -, m, hm, -⟩ := queueMsgAsyncEnd_entry A 0 r.clock (.str "ack") pkt.srcPkHex pkt.seqNo
      signed hq
    simp only [afterTurn, Function.update_self, hm, Option.isSome_some]
  | topic hu | drop hu | again hu | fresh hu | ack hu | probe hu | seen hu | first hu | unheard hu
  | next hu | changed hu | last hu | sent hu => cases hpc.symm.trans hu

variable (hA : A.Lawful) (hp : AppPacket.unpack A payload = .ok (some pkt))

include hA hp

theorem of_ackStarts (hrun : r.running = none) (hk : r.tasks[k]? = some t)
    (h₀ : 0 ≤ r.clock) (h₁ : pyInt r.clock < 256 ^ timestampLen) {pc : TaskPc} {c : MQTTClient KP}
    {recv : PyDict String ℚ} {calls : List (ℕ × AppPacket)}
    (ha : AckStarts A r.clock pkt (r.clients t.client) pc c) :
    GetsAck A k t.client pkt (r.afterTurn k t pc c recv calls) := by
  obtain ⟨signed, rfl, hq⟩ := ackStarts_signing hA hp h₀ h₁ ha
  have hk' : (r.afterTurn k t (.signing pkt pkt.seqNo signed) c recv calls).tasks[k]? =
      some { t with pc := .signing pkt pkt.seqNo signed } := by
    rw [getElem?_afterTurn hk, if_pos rfl]
  refine of_signing (t := { t with pc := .signing pkt pkt.seqNo signed }) hrun hk' rfl ?_
  simpa [afterTurn] using hq

variable (todo) in
theorem of_handling (hrun : r.running = none) (hk : r.tasks[k]? = some t)
    (h₀ : 0 ≤ r.clock) (h₁ : pyInt r.clock < 256 ^ timestampLen)
    (hpc : t.pc = .handling pkt todo (r.clients t.client).msgHandlers.size) :
    GetsAck A k t.client pkt r := by
  induction todo generalizing r t with
  | nil =>
    obtain ⟨r', h⟩ := exists_step_resume A 0 hrun hk (by rw [hpc]; rfl)
    have hl := sameLink_resume hk hpc (.inl rfl) (resume_of_step h)
    obtain ⟨u, pc, c, recv, calls, hk', hT, rfl⟩ := resume_spec (resume_of_step h)
    cases hk.symm.trans hk'
    refine cons h hl rfl rfl ?_
    cases hT with
    | last hu ha =>
      cases hpc.symm.trans hu
      exact of_ackStarts hA hp hrun hk h₀ h₁ ha
    | changed hu hne =>
      cases hpc.symm.trans hu
      exact absurd rfl hne
    | topic hu | drop hu | again hu | fresh hu | ack hu | probe hu | seen hu | first hu | unheard hu
    | next hu | signed hu | sent hu => cases hpc.symm.trans hu
  | cons x todo ih =>
    obtain ⟨r', h⟩ := exists_step_resume A 0 hrun hk (by rw [hpc]; rfl)
    have hl := sameLink_resume hk hpc (.inl rfl) (resume_of_step h)
    obtain ⟨u, pc, c, recv, calls, hk', hT, rfl⟩ := resume_spec (resume_of_step h)
    cases hk.symm.trans hk'
    obtain ⟨rfl, rfl, rfl⟩ := hT.of_handling hpc rfl
    refine cons h hl rfl rfl ?_
    refine ih (t := { t with pc := .handling pkt todo (r.clients t.client).msgHandlers.size }) hrun
      ?_ h₀ h₁ ?_
    · rw [getElem?_afterTurn hk, if_pos rfl]
    · simp [afterTurn]

theorem of_hashing (hrun : r.running = none) (hk : r.tasks[k]? = some t)
    (h₀ : 0 ≤ r.clock) (h₁ : pyInt r.clock < 256 ^ timestampLen) (hpc : t.pc = .hashing pkt) :
    GetsAck A k t.client pkt r := by
  obtain ⟨r', h⟩ := exists_step_resume A 0 hrun hk (by rw [hpc]; rfl)
  have hl := sameLink_resume hk hpc (.inr rfl) (resume_of_step h)
  obtain ⟨u, pc, c, recv, calls, hk', hT, rfl⟩ := resume_spec (resume_of_step h)
  cases hk.symm.trans hk'
  refine cons h hl rfl rfl ?_
  cases hT with
  | seen hu hs ha =>
    cases hpc.symm.trans hu
    exact of_ackStarts hA hp hrun hk h₀ h₁ ha
  | unheard hu hn hl ha =>
    cases hpc.symm.trans hu
    exact of_ackStarts hA hp hrun hk h₀ h₁ ha
  | @first _ pkt' hu hn x todo hl =>
    cases hpc.symm.trans hu
    refine of_handling todo hA hp
      (t := { t with pc := .handling pkt todo (r.clients t.client).msgHandlers.size }) hrun ?_ h₀ h₁ ?_
    · rw [getElem?_afterTurn hk, if_pos rfl]
    · simp [afterTurn]
  | topic hu | drop hu | again hu | fresh hu | ack hu | probe hu | next hu | changed hu | last hu
  | signed hu | sent hu => cases hpc.symm.trans hu

end GetsAck

theorem step_recv (hA : A.Lawful) (hs : Sound A r) (hrun : r.running = none) (i : ι)
    (payload : Bytes) : Router.step A r (.recv i (A.pkHex r.kp) payload false) =
      some { r with tasks := r.tasks ++ [⟨i, A.pkHex r.kp, payload, .verifying⟩] } := by
  have ht : r.checkTopic A i (A.pkHex r.kp) = .verifying := by
    simp only [checkTopic, Aio.pkHex, hA.hToB_toH, hs.kp i, ne_eq, not_true_eq_false, if_false]
  simp only [Router.step, hrun, act, handlePublish, ht, Bool.false_eq_true, if_false]

theorem step_verifying (hrun : r.running = none) (hk : r.tasks[k]? = some t)
    (hpc : t.pc = .verifying) (hp : AppPacket.unpack A t.payload = .ok (some pkt)) :
    Router.step A r (.resume k (.ok rnd)) = some (r.route A k t.client rnd pkt) := by
  obtain ⟨i, topic, payload, pc⟩ := t
  simp only at hpc hp
  subst hpc
  simp only [Router.step, hrun, act, resume, hk, hp]

variable (rnd) in
theorem step_fresh (hrun : r.running = none) (hk : r.tasks[k]? = some t) (hpc : t.pc = .verifying)
    (hp : AppPacket.unpack A t.payload = .ok (some pkt)) (hm : pkt.msgType = MsgEnum.msg.value)
    (ho : (r.clients t.client).tooOld r.clock pkt = false)
    (hn : (r.clients t.client).entry .msgack pkt.queueIdHex pkt.seqNo = none) :
    Router.step A r (.resume k (.ok rnd)) = some (r.afterTurn k t (.hashing pkt)
      ((r.clients t.client).dropOldAcks pkt.queueIdHex pkt.seqNo) r.recvMsgIds []) := by
  obtain ⟨-, hb⟩ | ⟨m, hm', -⟩ := processAppMsgBegin_spec (A := A) pkt (r.clients t.client)
  · rw [step_verifying hrun hk hpc hp, route, if_pos hm, if_neg (by rw [ho]; decide), processAppMsg,
      hb]
    exact congrArg some (setClient_setPc_eq_afterTurn ..)
  · rw [hn] at hm'
    cases hm'

variable (rnd) in
theorem step_again (hrun : r.running = none) (hk : r.tasks[k]? = some t) (hpc : t.pc = .verifying)
    (hp : AppPacket.unpack A t.payload = .ok (some pkt)) (hm : pkt.msgType = MsgEnum.msg.value)
    (ho : (r.clients t.client).tooOld r.clock pkt = false) {m : Meta}
    (he : (r.clients t.client).entry .msgack pkt.queueIdHex pkt.seqNo = some m)
    (hascii : A.isAscii m.destPkHex = true) (hpipe : (r.clients t.client).pipe ≠ none)
    (hfree : FreeId (r.clients t.client)) : ∃ r', Router.step A r (.resume k (.ok rnd)) = some r' ∧
      r'.running = none ∧
      ∃ z ∈ (r'.clients t.client).sent, z.topic = m.destPkHex ∧ z.payload = m.out := by
  obtain ⟨c, hc⟩ : ∃ c, c = (r.clients t.client).dropOldAcks pkt.queueIdHex pkt.seqNo := ⟨_, rfl⟩
  have hlink : SameLink (r.clients t.client) c := hc ▸ .dropOldAcks _ _ _
  have he' : c.entry .msgack pkt.queueIdHex pkt.seqNo = some m := by
    rw [hc, entry_dropOldAcks, if_neg fun h => lt_irrefl _ h.2.2, he]
  obtain ⟨z, d, hz⟩ := (publish_ok_iff (A := A) m.destPkHex m.out c).mpr ⟨hascii, hlink.freeId hfree⟩
  obtain ⟨htop, hpay, -⟩ := publish_eq_ok hz
  obtain ⟨pid, ids, o, -, hd⟩ := publish_frame A m.destPkHex m.out c
  rw [hz, final_ok] at hd
  have hdp : d.pipe ≠ none := by
    rw [hd]
    exact fun h => hpipe (hlink.pipe.symm.trans h)
  have hb : processAppMsgBegin A pkt (r.clients t.client) =
      .ok true { d with sent := d.sent ++ [z] } := by
    simp only [processAppMsgBegin, bind_apply, modify_apply, get_apply]
    rw [← hc, he']
    simp only [bind_apply, hz, get_apply, hdp, if_false, pure_apply, send, modify_apply]
  refine ⟨(r.setClient t.client { d with sent := d.sent ++ [z] }).setPc k .sending, ?_, hrun, z, ?_,
    htop, hpay⟩
  · rw [step_verifying hrun hk hpc hp, route, if_pos hm, if_neg (by rw [ho]; decide), processAppMsg,
      hb]
  · simp [setClient, setPc]

variable (rnd) in
theorem step_ack (hrun : r.running = none) (hk : r.tasks[k]? = some t) (hpc : t.pc = .verifying)
    (hp : AppPacket.unpack A t.payload = .ok (some pkt)) (hm : pkt.msgType = MsgEnum.msgack.value) :
    ∃ r', Router.step A r (.resume k (.ok rnd)) = some r' ∧
      r'.clients t.client = (r.clients t.client).processAppAck pkt := by
  refine ⟨(r.setClient t.client ((r.clients t.client).processAppAck pkt)).setPc k .done, ?_, ?_⟩
  · rw [step_verifying hrun hk hpc hp, route, if_neg (by rw [hm]; decide), if_pos hm]
  · simp [setClient, setPc]

theorem GetsAck.of_recv (hA : A.Lawful) (hrun : r.running = none) (hk : r.tasks[k]? = some t)
    (hpc : t.pc = .verifying) (hp : AppPacket.unpack A t.payload = .ok (some pkt))
    (hm : pkt.msgType = MsgEnum.msg.value)
    (ho : (r.clients t.client).tooOld r.clock pkt = false) (h₀ : 0 ≤ r.clock)
    (h₁ : pyInt r.clock < 256 ^ timestampLen) : GetsAck A k t.client pkt r := by
  cases he : (r.clients t.client).entry .msgack pkt.queueIdHex pkt.seqNo with
  | some m => exact ⟨0, r, rfl, by rw [he]; rfl, fun j => .refl _, rfl, rfl⟩
  | none =>
    have h := step_fresh 0 hrun hk hpc hp hm ho he
    refine GetsAck.cons h ?_ rfl rfl ?_
    · exact sameLink_setClient (.dropOldAcks _ _ _)
    · refine GetsAck.of_hashing hA hp (t := { t with pc := .hashing pkt }) hrun ?_ h₀ h₁ rfl
      rw [getElem?_afterTurn hk, if_pos rfl]

end Router

end Sidewire
