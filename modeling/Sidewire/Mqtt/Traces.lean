import Sidewire.Lib.Fallible
import Sidewire.Mqtt.PacketIds

/-! # What a call that raises leaves behind

The queueing functions check lengths, write to the tables and then build a
packet, where more arguments are refused. A refused call leaves no trace exactly
if what it writes first was there already. The answer to a probe also publishes
its packet, and a pipe that does not take it ends the call after all its writes.
-/

namespace Sidewire

namespace MQTTClient

open Exec

variable {KP : Type}

section Calls

variable (A : Aio KP)

/-- `queue_id_hex or to_h(rand_b(32))`. -/
def queueIdOr (queueIdHex : Option String) (rand : Bytes) : String :=
  match queueIdHex with
  | some q => if q = "" then A.toH rand else q
  | none => A.toH rand

/-- `queue_msg_async`, with nothing else running while its signature is computed. -/
def queueMsgAsync (rnd : ℕ) (now now' : ℚ) (msg : PyMsg) (dest q : String) (t : MsgEnum)
    (seqNo : Option ℤ) : ClientM KP ((String × ℤ) × ℕ) := do
  let (s, signed) ← queueMsgAsyncBegin A now msg dest q t seqNo
  queueMsgAsyncEnd A rnd now' msg dest q t s signed

/-- `send_probe_ack` with the packet that it builds. -/
def sendProbeAckBuf (rnd : ℕ) (now : ℚ) (dest q : String) (s : ℤ) (res : Except PyExc Unit) :
    ClientM KP Unit := do
  modify fun c => { c with lastSend := some now }
  modify fun c => c.ensureQueue .msgack q
  let c ← get
  if (c.entry .msgack q s).isSome then return
  let out ← ofExcept (AppPacket.pack A c.kp rnd now ⟨q, s, .msgack, .str "ack"⟩)
  let _ ← registerOneShot now (.str "ack") dest q .msgack s out
  let (_, pid) ← publishBuf A dest out false
  pipeSend res ⟨dest, out, pid⟩

end Calls

structure SameTables (c d : MQTTClient KP) : Prop where
  msgQueues : d.msgQueues = c.msgQueues
  sentMsgIds : d.sentMsgIds = c.sentMsgIds
  packetIds : d.packetIds = c.packetIds

def LeavesNoTrace {α : Type} (x : ClientM KP α) (c : MQTTClient KP) : Prop :=
  ∀ e d, x c = .error e d → SameTables c d

structure Packable (A : Aio KP) (now : ℚ) (q : String) (s : ℤ) : Prop where
  hex : ∃ b, A.hToB q = .ok b
  seqNo : 0 ≤ s ∧ s < 2 ^ 32
  time : 0 ≤ pyInt now ∧ pyInt now < 2 ^ 64

structure Publishable (A : Aio KP) (c : MQTTClient KP) (topic : String) : Prop where
  ascii : A.isAscii topic = true
  length : (A.toB (.str topic)).length ≤ 65535
  free : FreeId c

/-- What queueing a message writes before it builds the packet is there already. -/
structure Recorded (A : Aio KP) (c : MQTTClient KP) (msg : PyMsg) (q : String) (t : MsgEnum) :
    Prop where
  queue : (c.queue t q).isSome
  stamp : t = .msg → c.sentMsgIds.contains (A.sha256Hex (A.toB msg)) = true

/-- The arguments are refused by the first checks or not at all, or the call is on record. -/
def CleanQueueing (A : Aio KP) (c : MQTTClient KP) (now : ℚ) (msg : PyMsg) (dest q : String)
    (t : MsgEnum) (seqNo : Option ℤ) : Prop :=
  q.length = 64 → dest.length = 66 →
    Packable A now q (seqNo.getD (c.nextSeqNo t q)) ∨ Recorded A c msg q t

/-- The ack is there, or nothing is refused and an open pipe takes the packet, or the packet cannot
be built and its queue is there. -/
def CleanProbeAck (A : Aio KP) (c : MQTTClient KP) (now : ℚ) (dest q : String) (s : ℤ)
    (res : Except PyExc Unit) : Prop :=
  (c.entry .msgack q s).isSome ∨
    (q.length = 64 ∧ Packable A now q s) ∧ Publishable A c dest ∧
      (c.pipeAlive = true → res = .ok ()) ∨
    ¬ (q.length = 64 ∧ Packable A now q s) ∧ (c.queue .msgack q).isSome

def enter (A : Aio KP) (c : MQTTClient KP) (now : ℚ) (msg : PyMsg) (q : String) (t : MsgEnum) :
    MQTTClient KP :=
  (if t = .msg then c.stampSent (A.sha256Hex (A.toB msg)) now else c).ensureQueue t q

section Parts

variable {A : Aio KP} {c d : MQTTClient KP} {rnd : ℕ} {now now' : ℚ} {msg : PyMsg} {t : MsgEnum}
  {dest q topic : String} {seqNo : Option ℤ} {s : ℤ} {e : PyExc} {out payload : Bytes} {dup : Bool}

theorem SameTables.queue (h : SameTables c d) (t : MsgEnum) (q : String) :
    d.queue t q = c.queue t q := by
  rw [MQTTClient.queue, MQTTClient.queue, h.msgQueues]

theorem SameTables.entry (h : SameTables c d) (t : MsgEnum) (q : String) (s : ℤ) :
    d.entry t q s = c.entry t q s := by
  rw [MQTTClient.entry, MQTTClient.entry, h.queue]

theorem signedMsg_ok_iff (now : ℚ) (x : Draft) (mb : Bytes) :
    (∃ signed, AppPacket.signedMsg A now x mb = .ok signed) ↔
      x.queueIdHex.length = 64 ∧ Packable A now x.queueIdHex x.seqNo := by
  constructor
  · rintro ⟨signed, h⟩
    have hs := AppPacket.signedMsg_spec h
    obtain ⟨qid, hq, -⟩ := hs.layout
    exact ⟨hs.length_queueId, ⟨qid, hq⟩, ⟨hs.seqNo_nonneg, hs.seqNo_lt⟩, hs.time_nonneg, hs.time_lt⟩
  · rintro ⟨hl, ⟨qid, hq⟩, hs, ht⟩
    have htype : structPack msgTypeLen (x.msgType.value : ℤ) = .ok _ :=
      AppPacket.structPack_ok (Int.natCast_nonneg _) (by cases x.msgType <;> decide)
    have hs' : x.seqNo < 256 ^ seqNoLen := hs.2.trans_le (by decide)
    have ht' : pyInt now < 256 ^ timestampLen := ht.2.trans_le (by decide)
    simp only [AppPacket.signedMsg, hl, ne_eq, not_true_eq_false, if_false, hq,
      AppPacket.structPack_ok hs.1 hs', AppPacket.structPack_ok ht.1 ht', htype]
    exact ⟨_, rfl⟩

theorem pack_ok_iff (kp : KP) (rnd : ℕ) (now : ℚ) (x : Draft) :
    (∃ out, AppPacket.pack A kp rnd now x = .ok out) ↔
      x.queueIdHex.length = 64 ∧ Packable A now x.queueIdHex x.seqNo := by
  rw [← signedMsg_ok_iff now x (if x.msg.truthy then A.toB x.msg else []), AppPacket.pack]
  cases AppPacket.signedMsg A now x (if x.msg.truthy then A.toB x.msg else []) with
  | error e => simp [bind, Except.bind]
  | ok signed => simp [bind, Except.bind, pure, Except.pure]

theorem exists_error_of_not_ok {α : Type} {x : Except PyExc α} (h : ¬ ∃ a, x = .ok a) :
    ∃ e, x = .error e := by
  cases x with
  | error e => exact ⟨e, rfl⟩
  | ok a => exact absurd ⟨a, rfl⟩ h

theorem sentMsgIds_ensureQueue (c : MQTTClient KP) (t : MsgEnum) (q : String) :
    (c.ensureQueue t q).sentMsgIds = c.sentMsgIds := by
  unfold ensureQueue
  split_ifs <;> rfl

theorem packetIds_ensureQueue (c : MQTTClient KP) (t : MsgEnum) (q : String) :
    (c.ensureQueue t q).packetIds = c.packetIds := by
  unfold ensureQueue
  split_ifs <;> rfl

theorem ensureQueue_of_isSome (h : (c.queue t q).isSome) : c.ensureQueue t q = c := by
  rw [ensureQueue, if_pos]
  exact h

theorem sameTables_ensureQueue_iff : SameTables c (c.ensureQueue t q) ↔ (c.queue t q).isSome := by
  constructor
  · intro h
    rw [← h.queue t q, queue_ensureQueue, if_pos ⟨rfl, rfl⟩]
    rfl
  · intro h
    rw [ensureQueue_of_isSome h]
    exact ⟨rfl, rfl, rfl⟩

theorem sameTables_lastSend (c : MQTTClient KP) (now : Option ℚ) :
    SameTables c { c with lastSend := now } := ⟨rfl, rfl, rfl⟩

theorem sameTables_lastSend_iff (now : Option ℚ) :
    SameTables { c with lastSend := now } d ↔ SameTables c d :=
  ⟨fun h => ⟨h.msgQueues, h.sentMsgIds, h.packetIds⟩, fun h =>
    ⟨h.msgQueues, h.sentMsgIds, h.packetIds⟩⟩

theorem sentMsgIds_enter : (enter A c now msg q t).sentMsgIds =
    (if t = .msg then c.stampSent (A.sha256Hex (A.toB msg)) now else c).sentMsgIds :=
  sentMsgIds_ensureQueue _ t q

theorem queue_enter : (enter A c now msg q t).queue t q = (c.ensureQueue t q).queue t q := by
  by_cases ht : t = .msg
  · have hobj : (c.stampSent (A.sha256Hex (A.toB msg)) now).nextObj = c.nextObj := by
      unfold stampSent
      split_ifs <;> rfl
    simp only [enter, if_pos ht, queue_ensureQueue, (sameBook_stampSent c _ now).queue, hobj]
  · simp only [enter, if_neg ht]

theorem sameTables_enter_iff : SameTables c (enter A c now msg q t) ↔ Recorded A c msg q t := by
  constructor
  · intro h
    constructor
    · rw [← h.queue t q, queue_enter, queue_ensureQueue, if_pos ⟨rfl, rfl⟩]
      rfl
    · intro ht
      have hsent := h.sentMsgIds
      rw [sentMsgIds_enter, if_pos ht] at hsent
      unfold stampSent at hsent
      split_ifs at hsent with hin
      · exact hin
      · rw [← hsent, PyDict.contains_set]
        simp
  · intro h
    have hstamp : (if t = .msg then c.stampSent (A.sha256Hex (A.toB msg)) now else c) = c := by
      split_ifs with ht
      · rw [stampSent, if_pos (h.stamp ht)]
      · rfl
    rw [enter, hstamp, ensureQueue_of_isSome h.queue]
    exact ⟨rfl, rfl, rfl⟩

theorem orderedAckSendBegin_eq (hq : q.length = 64) (hd : dest.length = 66) :
    orderedAckSendBegin A now msg dest q t seqNo c =
      .ok (seqNo.getD (c.nextSeqNo t q)) (enter A c now msg q t) := by
  obtain ⟨e, h, -, hne⟩ | ⟨d, h, -, -, -, -⟩ :=
    orderedAckSendBegin_spec (A := A) now msg dest q t seqNo c
  · exact absurd ⟨hq, hd⟩ hne
  · rw [h]
    simp only [orderedAckSendBegin, checkLengths, hq, hd, ne_eq, not_true_eq_false, if_false] at h
    by_cases ht : t = .msg
    · rw [if_pos ht] at h
      rw [← (EStateM.Result.ok.inj h).2, enter, if_pos ht]
    · rw [if_neg ht] at h
      rw [← (EStateM.Result.ok.inj h).2, enter, if_neg ht]

theorem orderedAckSendBegin_error (A : Aio KP) (now : ℚ) (msg : PyMsg) (t : MsgEnum)
    (seqNo : Option ℤ) (c : MQTTClient KP) (h : ¬ (q.length = 64 ∧ dest.length = 66)) :
    ∃ e, orderedAckSendBegin A now msg dest q t seqNo c = .error e c := by
  obtain ⟨e, he, -⟩ | ⟨d, -, hq, hd, -⟩ :=
    orderedAckSendBegin_spec (A := A) now msg dest q t seqNo c
  · exact ⟨e, he⟩
  · exact absurd ⟨hq, hd⟩ h

theorem orderedAckSendEnd_ok (h : (c.queue t q).isSome) :
    ∃ a d, orderedAckSendEnd now msg dest q t s out c = .ok a d := by
  obtain ⟨hn, -⟩ | ⟨m, -, h'⟩ | ⟨d, -, -, h'⟩ := orderedAckSendEnd_spec now msg dest q t s out c
  · rw [hn] at h
    cases h
  · exact ⟨_, _, h'⟩
  · exact ⟨_, _, h'⟩

theorem orderedAckSendEnd_error (h : orderedAckSendEnd now msg dest q t s out c = .error e d) :
    d = c := by
  obtain ⟨-, h'⟩ | ⟨m, -, h'⟩ | ⟨d', -, -, h'⟩ := orderedAckSendEnd_spec now msg dest q t s out c
  · rw [h'] at h
    cases h
    rfl
  · rw [h'] at h
    cases h
  · rw [h'] at h
    cases h

theorem isSome_queue_enter (A : Aio KP) (c : MQTTClient KP) (now : ℚ) (msg : PyMsg) (q : String)
    (t : MsgEnum) : ((enter A c now msg q t).queue t q).isSome := by
  rw [queue_enter, queue_ensureQueue, if_pos ⟨rfl, rfl⟩]
  rfl

theorem buildPublish_ok_iff (A : Aio KP) (topic : String) (payload : PyMsg) (packetId : Bytes)
    (dup : Bool) : (∃ buf, buildPublish A topic payload packetId dup = .ok buf) ↔
      (A.toB (.str topic)).length ≤ 65535 := by
  constructor
  · rintro ⟨buf, h⟩
    obtain ⟨topicBytes, henc, -⟩ := Fallible.bind_eq_ok.mp h
    obtain ⟨len, hlen, -⟩ := Fallible.bind_eq_ok.mp henc
    have hlt := (AppPacket.structPack_eq_ok hlen).2.1
    have hlt' : (A.toB (.str topic)).length < 65536 := by exact_mod_cast hlt
    omega
  · intro h
    exact ⟨_, buildPublish_eq h⟩

theorem publishBuf_ok_iff (topic : String) (payload : Bytes) (dup : Bool) (c : MQTTClient KP) :
    (∃ b d, publishBuf A topic payload dup c = .ok b d) ↔ Publishable A c topic := by
  constructor
  · rintro ⟨b, d, h⟩
    obtain ⟨p, c₁, hp, h⟩ := bind_eq_ok.mp h
    obtain ⟨ha, hf⟩ := (publish_ok_iff topic payload c).mp ⟨p, c₁, hp⟩
    obtain ⟨buf, c₂, hb, -⟩ := bind_eq_ok.mp h
    refine ⟨ha, ?_, hf⟩
    apply (buildPublish_ok_iff A topic (.bytes payload) (packId p.packetId) dup).mp
    rw [ofExcept_apply] at hb
    cases hbuild : buildPublish A topic (.bytes payload) (packId p.packetId) dup with
    | ok buf => exact ⟨buf, rfl⟩
    | error e =>
      rw [hbuild] at hb
      cases hb
  · rintro ⟨ha, hl, hf⟩
    obtain ⟨p, d, hp⟩ := (publish_ok_iff topic payload c).mpr ⟨ha, hf⟩
    obtain ⟨buf, hb⟩ :=
      (buildPublish_ok_iff A topic (.bytes payload) (packId p.packetId) dup).mpr hl
    refine ⟨(buf, p.packetId), d, ?_⟩
    simp only [publishBuf, bind_apply, hp, hb, ofExcept_apply, pure_apply]

theorem final_ofExcept_bind_pure {α β : Type} (x : Except PyExc α) (f : α → β)
    (c : MQTTClient KP) :
    final ((ofExcept x >>= fun a => (pure (f a) : ClientM KP β)) c) = c := by
  cases x <;> rfl

theorem sameBook_publishBuf (A : Aio KP) (topic : String) (payload : Bytes) (dup : Bool)
    (c : MQTTClient KP) : SameBook c (final (publishBuf A topic payload dup c)) := by
  rw [publishBuf]
  apply sameBook_bind (sameBook_publish topic payload c)
  intro p d _
  rw [final_ofExcept_bind_pure]

theorem queueMsg_of_lengths (hq : q.length = 64) (hd : dest.length = 66) :
    queueMsg A rnd now msg dest q t seqNo c =
      (ofExcept (AppPacket.pack A (enter A { c with lastSend := some now } now msg q t).kp rnd now
        ⟨q, seqNo.getD (c.nextSeqNo t q), t, msg⟩) >>= fun out =>
          orderedAckSendEnd now msg dest q t (seqNo.getD (c.nextSeqNo t q)) out)
            (enter A { c with lastSend := some now } now msg q t) := by
  simp only [queueMsg, orderedAckSend, bind_apply, modify_apply, orderedAckSendBegin_eq hq hd,
    get_apply]
  rfl

theorem queueMsgAsync_of_lengths (hq : q.length = 64) (hd : dest.length = 66) :
    queueMsgAsync A rnd now now' msg dest q t seqNo c =
      match AppPacket.packAsyncBegin A now ⟨q, seqNo.getD (c.nextSeqNo t q), t, msg⟩ with
      | .ok signed => queueMsgAsyncEnd A rnd now' msg dest q t (seqNo.getD (c.nextSeqNo t q)) signed
          (enter A { c with lastSend := some now } now msg q t)
      | .error e => .error e (enter A { c with lastSend := some now } now msg q t) := by
  simp only [queueMsgAsync, queueMsgAsyncBegin, bind_apply, modify_apply,
    orderedAckSendBegin_eq hq hd, ofExcept_apply]
  have hnumber : seqNo.getD (MQTTClient.nextSeqNo { c with lastSend := some now } t q) =
      seqNo.getD (c.nextSeqNo t q) := rfl
  rw [hnumber]
  cases AppPacket.packAsyncBegin A now ⟨q, seqNo.getD (c.nextSeqNo t q), t, msg⟩ <;> rfl

/-- A call that is refused by its first checks, or after its first writes, or not at all. -/
theorem leavesNoTrace_iff {α : Type} {x : ClientM KP α}
    (hlength : ¬ (q.length = 64 ∧ dest.length = 66) →
      ∃ e, x c = .error e { c with lastSend := some now })
    (hpack : q.length = 64 → dest.length = 66 →
      ¬ Packable A now q (seqNo.getD (c.nextSeqNo t q)) →
        ∃ e, x c = .error e (enter A { c with lastSend := some now } now msg q t))
    (hok : q.length = 64 → dest.length = 66 → Packable A now q (seqNo.getD (c.nextSeqNo t q)) →
      ∃ a d, x c = .ok a d) :
    LeavesNoTrace x c ↔ CleanQueueing A c now msg dest q t seqNo := by
  have hrecorded : SameTables c (enter A { c with lastSend := some now } now msg q t) ↔
      Recorded A c msg q t := by
    rw [← sameTables_lastSend_iff (some now), sameTables_enter_iff]
    exact ⟨fun h => ⟨h.queue, h.stamp⟩, fun h => ⟨h.queue, h.stamp⟩⟩
  constructor
  · intro h hq hd
    by_cases hp : Packable A now q (seqNo.getD (c.nextSeqNo t q))
    · exact Or.inl hp
    · right
      obtain ⟨e, he⟩ := hpack hq hd hp
      exact hrecorded.mp (h e _ he)
  · intro h e d he
    by_cases hl : q.length = 64 ∧ dest.length = 66
    · by_cases hp : Packable A now q (seqNo.getD (c.nextSeqNo t q))
      · obtain ⟨a, d', hok'⟩ := hok hl.1 hl.2 hp
        rw [hok'] at he
        cases he
      · obtain ⟨e', he'⟩ := hpack hl.1 hl.2 hp
        rw [he'] at he
        cases he
        exact hrecorded.mpr ((h hl.1 hl.2).resolve_left hp)
    · obtain ⟨e', he'⟩ := hlength hl
      rw [he'] at he
      cases he
      exact sameTables_lastSend c (some now)

theorem queueMsg_leavesNoTrace_iff (A : Aio KP) (rnd : ℕ) (now : ℚ) (msg : PyMsg) (dest q : String)
    (t : MsgEnum) (seqNo : Option ℤ) (c : MQTTClient KP) :
    LeavesNoTrace (queueMsg A rnd now msg dest q t seqNo) c ↔
      CleanQueueing A c now msg dest q t seqNo := by
  apply leavesNoTrace_iff
  · intro hl
    obtain ⟨e, he⟩ := orderedAckSendBegin_error A now msg t seqNo { c with lastSend := some now } hl
    refine ⟨e, ?_⟩
    simp only [queueMsg, orderedAckSend, bind_apply, modify_apply, he]
  · intro hq hd hp
    obtain ⟨e, he⟩ := exists_error_of_not_ok fun hok => hp ((pack_ok_iff
      (enter A { c with lastSend := some now } now msg q t).kp rnd now
      ⟨q, seqNo.getD (c.nextSeqNo t q), t, msg⟩).mp hok).2
    refine ⟨e, ?_⟩
    rw [queueMsg_of_lengths hq hd, bind_apply, ofExcept_apply, he]
  · intro hq hd hp
    obtain ⟨out, hout⟩ := (pack_ok_iff (enter A { c with lastSend := some now } now msg q t).kp rnd
      now ⟨q, seqNo.getD (c.nextSeqNo t q), t, msg⟩).mpr ⟨hq, hp⟩
    rw [queueMsg_of_lengths hq hd, bind_apply, ofExcept_apply, hout]
    exact orderedAckSendEnd_ok (isSome_queue_enter A _ now msg q t)

theorem queueMsgAsync_leavesNoTrace_iff (A : Aio KP) (rnd : ℕ) (now now' : ℚ) (msg : PyMsg)
    (dest q : String) (t : MsgEnum) (seqNo : Option ℤ) (c : MQTTClient KP) :
    LeavesNoTrace (queueMsgAsync A rnd now now' msg dest q t seqNo) c ↔
      CleanQueueing A c now msg dest q t seqNo := by
  apply leavesNoTrace_iff
  · intro hl
    obtain ⟨e, he⟩ := orderedAckSendBegin_error A now msg t seqNo { c with lastSend := some now } hl
    refine ⟨e, ?_⟩
    simp only [queueMsgAsync, queueMsgAsyncBegin, bind_apply, modify_apply, he]
  · intro hq hd hp
    obtain ⟨e, he⟩ := exists_error_of_not_ok fun hok => hp ((signedMsg_ok_iff now
      ⟨q, seqNo.getD (c.nextSeqNo t q), t, msg⟩ (A.toB msg)).mp hok).2
    refine ⟨e, ?_⟩
    rw [queueMsgAsync_of_lengths hq hd, AppPacket.packAsyncBegin, he]
  · intro hq hd hp
    obtain ⟨signed, hsigned⟩ := (signedMsg_ok_iff now
      ⟨q, seqNo.getD (c.nextSeqNo t q), t, msg⟩ (A.toB msg)).mpr ⟨hq, hp⟩
    rw [queueMsgAsync_of_lengths hq hd, AppPacket.packAsyncBegin, hsigned]
    exact orderedAckSendEnd_ok (isSome_queue_enter A _ now msg q t)

theorem pack_probeAck_ok_iff (rnd : ℕ) :
    (∃ out, AppPacket.pack A c.kp rnd now ⟨q, s, .msgack, .str "ack"⟩ = .ok out) ↔
      q.length = 64 ∧ Packable A now q s :=
  pack_ok_iff c.kp rnd now ⟨q, s, .msgack, .str "ack"⟩

theorem sendProbeAckBuf_eq (res : Except PyExc Unit) (h : c.entry .msgack q s = none) :
    sendProbeAckBuf A rnd now dest q s res c =
      (ofExcept (AppPacket.pack A c.kp rnd now ⟨q, s, .msgack, .str "ack"⟩) >>= fun out =>
        registerOneShot now (.str "ack") dest q .msgack s out >>= fun _ =>
          publishBuf A dest out false >>= fun b => pipeSend res ⟨dest, out, b.2⟩)
            (MQTTClient.ensureQueue { c with lastSend := some now } .msgack q) := by
  have hentry : (MQTTClient.ensureQueue { c with lastSend := some now } .msgack q).entry
      .msgack q s = none := by
    rw [entry_ensureQueue]
    exact h
  have hkp : (MQTTClient.ensureQueue { c with lastSend := some now } .msgack q).kp = c.kp := by
    unfold ensureQueue
    split_ifs <;> rfl
  simp only [sendProbeAckBuf, bind_apply, modify_apply, get_apply, hentry, Option.isSome_none,
    Bool.false_eq_true, if_false, hkp]

theorem registerOneShot_eq {dq : Queue} (h : c.queue t q = some dq) :
    registerOneShot now msg dest q t s out c =
      .ok c.nextObj (c.register t q dq (c.newMeta now dest s out true) msg) := by
  simp only [registerOneShot, bind_apply, get_apply, h]
  rfl

theorem pipe_ensureQueue (c : MQTTClient KP) (t : MsgEnum) (q : String) :
    (c.ensureQueue t q).pipe = c.pipe := by
  unfold ensureQueue
  split_ifs <;> rfl

theorem registerOneShot_ensureQueue (c : MQTTClient KP) (now : ℚ) (msg : PyMsg) (dest q : String)
    (t : MsgEnum) (s : ℤ) (out : Bytes) :
    ∃ a r, registerOneShot now msg dest q t s out (c.ensureQueue t q) = .ok a r ∧
      (r.entry t q s).isSome ∧ r.packetIds = c.packetIds ∧ r.pipe = c.pipe := by
  have hqueue : (c.ensureQueue t q).queue t q = some ((c.queue t q).getD ⟨c.nextObj, ∅⟩) := by
    rw [queue_ensureQueue, if_pos ⟨rfl, rfl⟩]
  refine ⟨_, _, registerOneShot_eq hqueue, ?_, packetIds_ensureQueue c t q, pipe_ensureQueue c t q⟩
  rw [entry_register _ _ _ _ _ _ hqueue, if_pos ⟨rfl, rfl, rfl⟩]
  rfl

theorem pipeSend_eq_error_iff {p : Publish} {res : Except PyExc Unit} :
    pipeSend res p c = .error e d ↔
      c.pipeAlive = true ∧ res = .error e ∧ d = { c with sent := c.sent ++ [p] } := by
  have hsent : ∀ c : MQTTClient KP, send p c = .ok () { c with sent := c.sent ++ [p] } :=
    fun _ => rfl
  simp only [pipeSend, bind_apply, get_apply]
  by_cases ha : c.pipeAlive = true
  · rw [if_pos ha, bind_apply, hsent]
    cases res with
    | error e' =>
      constructor
      · intro h
        cases h
        exact ⟨ha, rfl, rfl⟩
      · rintro ⟨-, hres, rfl⟩
        cases hres
        rfl
    | ok u => exact ⟨fun h => (by cases h), fun h => (by cases h.2.1)⟩
  · rw [if_neg ha]
    exact ⟨fun h => (by cases h), fun h => absurd h.1 ha⟩

theorem pipe_publishBuf (A : Aio KP) (topic : String) (payload : Bytes) (dup : Bool)
    (c : MQTTClient KP) : (final (publishBuf A topic payload dup c)).pipe = c.pipe := by
  have hpub : (final (publish A topic payload c)).pipe = c.pipe := by
    obtain ⟨e, counter, h⟩ | ⟨counter, pid, -, -, -, h⟩ := publish_cases A topic payload c
    · rw [h]
      rfl
    · rw [h]
      rfl
  rw [publishBuf, bind_apply]
  cases h : publish A topic payload c with
  | error e d =>
    rw [h] at hpub
    exact hpub
  | ok p d =>
    rw [h] at hpub
    rw [final_ofExcept_bind_pure]
    exact hpub

theorem publishable_congr (h : d.packetIds = c.packetIds) :
    Publishable A d topic ↔ Publishable A c topic := by
  have hfree : FreeId d ↔ FreeId c := by
    simp only [FreeId, inFlight, h]
  constructor
  · rintro ⟨ha, hl, hf⟩
    exact ⟨ha, hl, hfree.mp hf⟩
  · rintro ⟨ha, hl, hf⟩
    exact ⟨ha, hl, hfree.mpr hf⟩

theorem sendProbeAckBuf_leavesNoTrace_iff (A : Aio KP) (rnd : ℕ) (now : ℚ) (dest q : String) (s : ℤ)
    (res : Except PyExc Unit) (c : MQTTClient KP) :
    LeavesNoTrace (sendProbeAckBuf A rnd now dest q s res) c ↔
      CleanProbeAck A c now dest q s res := by
  have hensure : SameTables c (MQTTClient.ensureQueue { c with lastSend := some now } .msgack q) ↔
      (c.queue .msgack q).isSome := by
    rw [← sameTables_lastSend_iff (some now), sameTables_ensureQueue_iff]
    rfl
  cases hentry : c.entry .msgack q s with
  | some m =>
    have hheld : (MQTTClient.ensureQueue { c with lastSend := some now } .msgack q).entry
        .msgack q s = some m := by
      rw [entry_ensureQueue]
      exact hentry
    constructor
    · intro _
      left
      rw [hentry]
      rfl
    · intro _ e d h
      simp only [sendProbeAckBuf, bind_apply, modify_apply, get_apply, hheld, Option.isSome_some,
        if_true] at h
      cases h
  | none =>
    rw [CleanProbeAck, LeavesNoTrace, hentry, sendProbeAckBuf_eq res hentry, bind_apply,
      ofExcept_apply]
    by_cases hp : q.length = 64 ∧ Packable A now q s
    · obtain ⟨out, hout⟩ := (pack_probeAck_ok_iff (c := c) rnd).mpr hp
      obtain ⟨a, r, hr, hsome, hids, hpipe⟩ := registerOneShot_ensureQueue
        { c with lastSend := some now } now (.str "ack") dest q .msgack s out
      have hids' : r.packetIds = c.packetIds := hids
      -- past the entry every call that raises leaves it behind
      have hentered : ((final (publishBuf A dest out false r)).entry .msgack q s).isSome := by
        rw [(sameBook_publishBuf A dest out false r).entry]
        exact hsome
      have halive : (final (publishBuf A dest out false r)).pipeAlive = c.pipeAlive := by
        rw [pipeAlive, pipe_publishBuf, hpipe]
        rfl
      have hpub := publishBuf_ok_iff (A := A) dest out false r
      rw [publishable_congr hids'] at hpub
      simp only [hout, bind_apply, hr]
      cases hres : publishBuf A dest out false r with
      | ok b d =>
        have hd := hpub.mp ⟨b, d, hres⟩
        rw [hres, final_ok] at hentered halive
        constructor
        · intro h
          refine Or.inr (Or.inl ⟨hp, hd, ?_⟩)
          intro ha
          cases res with
          | ok u => rfl
          | error e =>
            have hsent := h e _ (pipeSend_eq_error_iff.mpr ⟨halive.trans ha, rfl, rfl⟩)
            have hkept : d.entry .msgack q s = none := (hsent.entry .msgack q s).trans hentry
            rw [hkept] at hentered
            cases hentered
        · rintro (h | ⟨-, -, h⟩ | ⟨h, -⟩) e' d' he'
          · cases h
          · obtain ⟨ha, rfl, -⟩ := pipeSend_eq_error_iff.mp he'
            cases h (halive.symm.trans ha)
          · exact absurd hp h
      | error e d =>
        have hd : ¬ Publishable A c dest := fun h => by
          obtain ⟨b, d', hok⟩ := hpub.mpr h
          rw [hres] at hok
          cases hok
        rw [hres, final_error] at hentered
        constructor
        · intro h
          rw [(h e d rfl).entry .msgack q s, hentry] at hentered
          cases hentered
        · rintro (h | ⟨-, h, -⟩ | ⟨h, -⟩)
          · cases h
          · exact absurd h hd
          · exact absurd hp h
    · obtain ⟨e, he⟩ := exists_error_of_not_ok fun h => hp ((pack_probeAck_ok_iff (c := c) rnd).mp h)
      simp only [he]
      constructor
      · intro h
        exact Or.inr (Or.inr ⟨hp, hensure.mp (h e _ rfl)⟩)
      · rintro (h | ⟨h, -⟩ | ⟨-, h⟩) e' d hd
        · cases h
        · exact absurd h hp
        · cases hd
          exact hensure.mpr h

end Parts

/-- A queueing call that raises leaves no trace exactly if its arguments pass all checks or fail
the first ones, or if what it writes between them was there before; and for the answer to a probe,
if the pipe takes the packet. -/
theorem failed_queueing_leaves_no_trace_iff (A : Aio KP) (rnd : ℕ) (now now' : ℚ) (msg : PyMsg)
    (dest q : String) (queueIdHex : Option String) (rand : Bytes) (t : MsgEnum) (seqNo : Option ℤ)
    (s : ℤ) (res : Except PyExc Unit) (c : MQTTClient KP) :
    (LeavesNoTrace (queueMsg A rnd now msg dest (queueIdOr A queueIdHex rand) t seqNo) c ↔
      CleanQueueing A c now msg dest (queueIdOr A queueIdHex rand) t seqNo) ∧
    (LeavesNoTrace (queueMsgAsync A rnd now now' msg dest (queueIdOr A queueIdHex rand) t seqNo) c ↔
      CleanQueueing A c now msg dest (queueIdOr A queueIdHex rand) t seqNo) ∧
    (LeavesNoTrace (sendProbeAckBuf A rnd now dest q s res) c ↔
      CleanProbeAck A c now dest q s res) ∧
    ∀ signed e d, queueMsgAsyncEnd A rnd now' msg dest q t s signed c = .error e d → d = c := by
  refine ⟨queueMsg_leavesNoTrace_iff A rnd now msg dest _ t seqNo c,
    queueMsgAsync_leavesNoTrace_iff A rnd now now' msg dest _ t seqNo c,
    sendProbeAckBuf_leavesNoTrace_iff A rnd now dest q s res c, ?_⟩
  intro signed e d h
  exact orderedAckSendEnd_error h

/-- A number of 33 bits is refused after the message was stamped and its queue made. An open pipe
that fails leaves the ack in its queue. -/
theorem failed_queueing_leaves_trace :
    ¬ LeavesNoTrace (queueMsg concrete 0 0 (.str "hi") (concrete.pkHex 1)
      (queueIdOr concrete (some (Concrete.queueId 'a')) []) .msg (some (2 ^ 32)))
        (init 0 HandlerSet.empty) ∧
    ¬ LeavesNoTrace (sendProbeAckBuf concrete 0 0 (concrete.pkHex 1) (Concrete.queueId 'a')
      (2 ^ 32) (.ok ())) (init 0 HandlerSet.empty) ∧
    ¬ LeavesNoTrace (sendProbeAckBuf concrete 0 0 (concrete.pkHex 1) (Concrete.queueId 'a') 0
      (.error (.osError "Broken pipe"))) { init 0 HandlerSet.empty with pipe := some ⟨false⟩ } := by
  have hq : (Concrete.queueId 'a').length = 64 := by
    rw [Concrete.queueId, String.length_ofList, List.length_replicate]
  have hne : Concrete.queueId 'a' ≠ "" := by
    intro h
    rw [h] at hq
    cases hq
  have hd : (concrete.pkHex 1).length = 66 := by
    rw [Aio.pkHex, concrete_lawful.length_toH, concrete_lawful.length_compactPublicKey]
  rw [queueMsg_leavesNoTrace_iff, sendProbeAckBuf_leavesNoTrace_iff,
    sendProbeAckBuf_leavesNoTrace_iff, queueIdOr, if_neg hne]
  refine ⟨?_, ?_, ?_⟩
  · intro h
    rcases h hq hd with hp | hr
    · exact absurd hp.seqNo.2 (lt_irrefl _)
    · cases hr.queue
  · rintro (h | ⟨⟨-, hp⟩, -⟩ | ⟨-, h⟩)
    · cases h
    · exact absurd hp.seqNo.2 (lt_irrefl _)
    · cases h
  · rintro (h | ⟨-, -, h⟩ | ⟨-, h⟩)
    · cases h
    · cases h rfl
    · cases h

end MQTTClient

end Sidewire
