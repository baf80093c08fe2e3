import Sidewire.Mqtt.Dispatch
import Sidewire.Mqtt.Effects

/-! # The writes of each operation

One lemma for each function that runs on a client: the writes it may make, and
what its result says about the state it ran in. Exceptions are covered, since a
function that raises keeps what it wrote before.
-/

namespace Sidewire

namespace MQTTClient

open Exec

variable {KP : Type} {A : Aio KP} {P : Write → Prop} {c d : MQTTClient KP} {t : MsgEnum}
  {q dest topic : String} {s : ℤ} {m : Meta} {msg : PyMsg} {out payload signed : Bytes}
  {now : ℚ} {rnd : ℕ} {pkt : AppPacket}

theorem sameBook_bind {α β : Type} {x : ClientM KP α} {f : α → ClientM KP β}
    (hx : SameBook c (final (x c))) (hf : ∀ a d, x c = .ok a d → SameBook d (final (f a d))) :
    SameBook c (final ((x >>= f) c)) :=
  rel_final_bind SameBook SameBook.trans hx hf

theorem writes_bind {α β : Type} {x : ClientM KP α} {f : α → ClientM KP β}
    (hx : Writes A P c (final (x c)))
    (hf : ∀ a d, x c = .ok a d → Writes A P d (final (f a d))) :
    Writes A P c (final ((x >>= f) c)) :=
  rel_final_bind (Writes A P) Writes.trans hx hf

theorem getPacketIdLoop_frame (n : ℕ) (c : MQTTClient KP) :
    ∃ pid, final (getPacketIdLoop n c) = { c with packetId := pid } := by
  induction n generalizing c with
  | zero => exact ⟨c.packetId, rfl⟩
  | succ n ih =>
    simp only [getPacketIdLoop, bind_apply, modify_apply, get_apply]
    split_ifs
    · obtain ⟨pid, h⟩ := ih { c with packetId := c.packetId % 65535 + 1 }
      exact ⟨pid, h⟩
    · exact ⟨_, rfl⟩

theorem publish_of_ascii (h : A.isAscii topic = true) (payload : Bytes) (c : MQTTClient KP) :
    publish A topic payload c =
      (packetAckFuture .puback >>= fun pid => pure ⟨topic, payload, pid⟩) c := by
  simp only [publish, h, not_true_eq_false, if_false]

theorem publish_of_not_ascii (h : A.isAscii topic ≠ true) (payload : Bytes) (c : MQTTClient KP) :
    publish A topic payload c = .error (.valueError "topic must be ASCII") c := by
  rw [publish, if_pos h]
  rfl

theorem publish_frame (A : Aio KP) (topic : String) (payload : Bytes) (c : MQTTClient KP) :
    ∃ pid ids o, c.nextObj ≤ o ∧ final (publish A topic payload c) =
      { c with packetId := pid, packetIds := ids, nextObj := o } := by
  by_cases h : A.isAscii topic = true
  · rw [publish_of_ascii h, packetAckFuture, getPacketId]
    obtain ⟨pid, hf⟩ := getPacketIdLoop_frame 65535 c
    simp only [bind_apply]
    cases hl : getPacketIdLoop 65535 c with
    | error e d =>
      rw [hl] at hf
      exact ⟨pid, c.packetIds, c.nextObj, le_rfl, hf⟩
    | ok n d =>
      rw [hl, final_ok] at hf
      subst hf
      exact ⟨pid, _, _, Nat.le_succ _, rfl⟩
  · rw [publish_of_not_ascii h]
    exact ⟨c.packetId, c.packetIds, c.nextObj, le_rfl, rfl⟩

theorem sameBook_publish (topic : String) (payload : Bytes) (c : MQTTClient KP) :
    SameBook c (final (publish A topic payload c)) := by
  obtain ⟨pid, ids, o, ho, h⟩ := publish_frame A topic payload c
  rw [h]
  exact ⟨rfl, rfl, rfl, rfl, rfl, rfl, ho, rfl, rfl, rfl⟩

theorem publish_eq_ok {p : Publish} (h : publish A topic payload c = .ok p d) :
    p.topic = topic ∧ p.payload = payload ∧ SameBook c d := by
  have hs := sameBook_publish (A := A) topic payload c
  rw [h] at hs
  by_cases ha : A.isAscii topic = true
  · rw [publish_of_ascii ha] at h
    obtain ⟨pid, c₁, -, h⟩ := bind_eq_ok.mp h
    cases h
    exact ⟨rfl, rfl, hs⟩
  · rw [publish_of_not_ascii ha] at h
    cases h

def FreeId (c : MQTTClient KP) : Prop := ∃ pid, 1 ≤ pid ∧ pid ≤ 65535 ∧ c.inFlight pid = false

theorem getPacketIdLoop_ok_iff (n : ℕ) (c : MQTTClient KP) :
    (∃ pid d, getPacketIdLoop n c = .ok pid d) ↔
      ∃ j < n, c.inFlight ((c.packetId + j) % 65535 + 1) = false := by
  induction n generalizing c with
  | zero => simp [getPacketIdLoop]
  | succ n ih =>
    simp only [getPacketIdLoop, bind_apply, modify_apply, get_apply]
    have hfirst : ∀ pid, MQTTClient.inFlight { c with packetId := c.packetId % 65535 + 1 } pid =
      c.inFlight pid := fun _ => rfl
    split_ifs with h
    · rw [ih]
      rw [hfirst] at h
      constructor
      · rintro ⟨j, hj, hf⟩
        refine ⟨j + 1, by omega, ?_⟩
        rw [hfirst] at hf
        rw [← hf]
        congr 1
        change (c.packetId + (j + 1)) % 65535 + 1 = (c.packetId % 65535 + 1 + j) % 65535 + 1
        omega
      · rintro ⟨j, hj, hf⟩
        cases j with
        | zero => exact absurd (h.symm.trans hf) (by decide)
        | succ j =>
          refine ⟨j, by omega, ?_⟩
          rw [hfirst, ← hf]
          congr 1
          change (c.packetId % 65535 + 1 + j) % 65535 + 1 = (c.packetId + (j + 1)) % 65535 + 1
          omega
    · rw [hfirst] at h
      exact ⟨fun _ => ⟨0, by omega, Bool.eq_false_of_not_eq_true h⟩, fun _ => ⟨_, _, rfl⟩⟩

theorem getPacketId_ok_iff (c : MQTTClient KP) :
    (∃ pid d, getPacketId c = .ok pid d) ↔ FreeId c := by
  rw [getPacketId, getPacketIdLoop_ok_iff]
  constructor
  · rintro ⟨j, hj, hf⟩
    exact ⟨_, by omega, by omega, hf⟩
  · rintro ⟨pid, h₁, h₂, hf⟩
    refine ⟨(pid - 1 + (65535 - c.packetId % 65535)) % 65535, by omega, ?_⟩
    rw [← hf]
    congr 1
    omega

theorem publish_ok_iff (topic : String) (payload : Bytes) (c : MQTTClient KP) :
    (∃ p d, publish A topic payload c = .ok p d) ↔ A.isAscii topic = true ∧ FreeId c := by
  by_cases h : A.isAscii topic = true
  · simp only [publish_of_ascii h, h, true_and, ← getPacketId_ok_iff]
    constructor
    · rintro ⟨p, d, hp⟩
      obtain ⟨pid, c₁, hf, -⟩ := bind_eq_ok.mp hp
      obtain ⟨pid', c₂, hi, -⟩ := bind_eq_ok.mp hf
      exact ⟨pid', c₂, hi⟩
    · rintro ⟨pid, c₁, hi⟩
      simp only [getPacketId] at hi
      simp only [packetAckFuture, getPacketId, bind_apply, hi, modify_apply, pure_apply]
      exact ⟨_, _, rfl⟩
  · simp only [publish_of_not_ascii h, h]
    simp

theorem publish_eq_error {e : PyExc} (h : publish A topic payload c = .error e d) :
    SameBook c d := by
  have hs := sameBook_publish (A := A) topic payload c
  rwa [h] at hs

theorem writes_publish_safePipeSend {n : ℕ} (hm : (c.queueObject t q n).get? s = some m) :
    Writes A P c (final ((publish A m.destPkHex m.out >>= safePipeSend) c)) := by
  rw [bind_apply]
  cases h : publish A m.destPkHex m.out c with
  | error e c₁ => exact .quiet (publish_eq_error h)
  | ok p c₁ =>
    obtain ⟨ht, hp, hs⟩ := publish_eq_ok h
    refine .trans (.quiet hs) ?_
    simp only [safePipeSend, bind_apply, get_apply]
    split_ifs
    · rw [← hs.queueObject] at hm
      exact .send hm ht hp
    · exact .refl c₁

/-- Whatever the pipe's `send` raises, the client is as if it had returned. -/
theorem final_pipeSend (res : Except PyExc Unit) (p : Publish) (c : MQTTClient KP) :
    final (pipeSend res p c) = final (safePipeSend p c) := by
  simp only [pipeSend, safePipeSend, bind_apply, get_apply]
  split_ifs
  · cases res <;> rfl
  · rfl

theorem queueObject_of_queue {dq : Queue} (h : c.queue t q = some dq) :
    c.queueObject t q dq.ident = dq.metas := by
  rw [queueObject, h]
  exact if_pos rfl

theorem queueObject_of_entry (h : c.entry t q s = some m) :
    ∃ n, (c.queueObject t q n).get? s = some m := by
  cases hd : c.queue t q with
  | none => rw [entry, hd] at h; cases h
  | some dq =>
    refine ⟨dq.ident, ?_⟩
    rw [queueObject_of_queue hd, ← entry_of_queue hd, h]

theorem queueObject_putMeta {n : ℕ} (m' : Meta) (hm : (c.queueObject t q n).get? s = some m) :
    ((c.putMeta t q n s m').queueObject t q n).get? s = some m' := by
  unfold queueObject at hm
  unfold putMeta
  split at hm
  · rename_i d hd
    have hq : (c.msgQueues t).get? q = some d := hd
    by_cases hn : d.ident = n
    · simp [queueObject, queue_putQueue, hn]
    · simp [queueObject, queue, hq, hn]
  · rename_i hd
    have hq : (c.msgQueues t).get? q = none := hd
    simp [queueObject, queue, hq]

theorem sameBook_stampSent (c : MQTTClient KP) (id : String) (now : ℚ) :
    SameBook c (c.stampSent id now) := by
  unfold stampSent
  split_ifs
  · exact .refl c
  · exact ⟨rfl, rfl, rfl, rfl, rfl, rfl, le_rfl, rfl, rfl, rfl⟩

theorem sameBook_lastSend (c : MQTTClient KP) (t : Option ℚ) :
    SameBook c { c with lastSend := t } :=
  ⟨rfl, rfl, rfl, rfl, rfl, rfl, le_rfl, rfl, rfl, rfl⟩

theorem nextSeqNo_of_queue (h : c.queue t q = d.queue t q) : c.nextSeqNo t q = d.nextSeqNo t q := by
  rw [nextSeqNo, nextSeqNo, h]

theorem nextSeqNo_ensureQueue (c : MQTTClient KP) (t : MsgEnum) (q : String) :
    (c.ensureQueue t q).nextSeqNo t q = c.nextSeqNo t q := by
  rw [nextSeqNo, queue_ensureQueue, if_pos ⟨rfl, rfl⟩, nextSeqNo]
  cases c.queue t q <;> rfl

theorem nextSeqNo_cases (c : MQTTClient KP) (t : MsgEnum) (q : String) :
    (∀ s, c.entry t q s = none) ∧ c.nextSeqNo t q = 0 ∨
      ∃ n, (c.entry t q n).isSome ∧ (∀ s, (c.entry t q s).isSome → s ≤ n) ∧
        c.nextSeqNo t q = n + 1 := by
  have hmem : ∀ s : ℤ, s ∈ ((c.queue t q).map fun d => d.metas.keys).getD [] ↔
      (c.entry t q s).isSome := by
    intro s
    rw [entry]
    cases c.queue t q with
    | none => simp
    | some d => simp [PyDict.mem_keys_iff, Option.isSome_iff_exists]
  unfold nextSeqNo
  generalize ((c.queue t q).map fun d => d.metas.keys).getD [] = keys at hmem
  cases hmax : keys.max? with
  | none =>
    left
    rw [List.max?_eq_none_iff] at hmax
    subst hmax
    constructor
    · intro s
      rw [← Option.not_isSome_iff_eq_none]
      exact fun hs => List.not_mem_nil ((hmem s).mpr hs)
    · rfl
  | some n =>
    right
    obtain ⟨hn, hle⟩ := List.max?_eq_some_iff.mp hmax
    exact ⟨n, (hmem n).mp hn, fun s hs => hle s ((hmem s).mpr hs), rfl⟩

theorem orderedAckSendBegin_spec (now : ℚ) (msg : PyMsg) (dest q : String) (t : MsgEnum)
    (seqNo : Option ℤ) (c : MQTTClient KP) :
    (∃ e, orderedAckSendBegin A now msg dest q t seqNo c = .error e c ∧ logged e = true ∧
      ¬ (q.length = 64 ∧ dest.length = 66)) ∨
    ∃ d, orderedAckSendBegin A now msg dest q t seqNo c =
        .ok (seqNo.getD (c.nextSeqNo t q)) d ∧
      q.length = 64 ∧ dest.length = 66 ∧ SameBook (c.ensureQueue t q) d ∧
        (∀ P, Writes A P c d) := by
  unfold orderedAckSendBegin checkLengths
  by_cases hq : q.length = 64
  · by_cases hd : dest.length = 66
    · right
      simp only [hq, hd, ne_eq, not_true_eq_false, if_false]
      by_cases ht : t = .msg
      · have hs := sameBook_stampSent c (A.sha256Hex (A.toB msg)) now
        refine ⟨(c.stampSent (A.sha256Hex (A.toB msg)) now).ensureQueue t q, ?_, trivial, trivial,
          ?_, fun P => .trans (.quiet hs) (.ensureQueue _ t q)⟩
        · simp only [ht, if_true, bind_apply, pure_apply, modify_apply, get_apply]
          rw [nextSeqNo_ensureQueue, nextSeqNo_of_queue (hs.queue .msg q)]
        · unfold MQTTClient.ensureQueue
          rw [hs.msgQueues]
          split_ifs
          · exact hs
          · refine ⟨hs.kp, hs.msgHandlers, ?_, hs.republishDuration, hs.resolved, hs.unlinked,
              Nat.succ_le_succ hs.nextObj_le, hs.queued, hs.acked, hs.sent⟩
            have ho : (c.stampSent (A.sha256Hex (A.toB msg)) now).nextObj = c.nextObj := by
              unfold stampSent; split_ifs <;> rfl
            simp only [putQueue, hs.msgQueues, ho]
      · refine ⟨c.ensureQueue t q, ?_, trivial, trivial, .refl _, fun P => .ensureQueue c t q⟩
        simp only [ht, if_false, bind_apply, pure_apply, modify_apply, get_apply]
        rw [nextSeqNo_ensureQueue]
    · left
      simp only [hq, hd, ne_eq, not_true_eq_false, not_false_eq_true, if_false, if_true]
      exact ⟨_, rfl, rfl, fun h => h.2⟩
  · left
    simp only [hq, ne_eq, not_false_eq_true, if_true]
    exact ⟨_, rfl, rfl, fun h => h.1⟩

theorem orderedAckSendEnd_spec (now : ℚ) (msg : PyMsg) (dest q : String) (t : MsgEnum) (s : ℤ)
    (out : Bytes) (c : MQTTClient KP) :
    (c.queue t q = none ∧ orderedAckSendEnd now msg dest q t s out c = .error (.keyError q) c) ∨
    (∃ m, c.entry t q s = some m ∧
      orderedAckSendEnd now msg dest q t s out c = .ok ((q, s), m.appAck) c) ∨
    ∃ d, c.queue t q = some d ∧ c.entry t q s = none ∧
      orderedAckSendEnd now msg dest q t s out c =
        .ok ((q, s), c.nextObj) (c.register t q d (c.newMeta now dest s out false) msg) := by
  simp only [orderedAckSendEnd, bind_apply, get_apply]
  cases hd : c.queue t q with
  | none => exact .inl ⟨rfl, rfl⟩
  | some d =>
    rw [entry_of_queue hd]
    cases hm : d.metas.get? s with
    | none => exact .inr (.inr ⟨d, rfl, rfl, by simp only [hm]; rfl⟩)
    | some m => exact .inr (.inl ⟨m, rfl, by simp only [hm]; rfl⟩)

theorem writes_orderedAckSendEnd
    (hp : ∃ now signed rnd, AppPacket.Signed A now ⟨q, s, t, msg⟩ (A.toB msg) signed ∧
      out = AppPacket.assemble A c.kp rnd signed)
    (hP : c.entry t q s = none → ∀ ack, P (.register ⟨t, q, s, dest, msg, out, ack⟩)) :
    Writes A P c (final (orderedAckSendEnd now msg dest q t s out c)) := by
  obtain ⟨-, h⟩ | ⟨m, -, h⟩ | ⟨d, hd, hn, h⟩ := orderedAckSendEnd_spec now msg dest q t s out c
  · rw [h]; exact .refl c
  · rw [h]; exact .refl c
  · rw [h]; exact .register hd rfl (fun _ => rfl) hp (hP hn _)

theorem ofExcept_apply {α : Type} (x : Except PyExc α) (c : MQTTClient KP) :
    ofExcept x c = match x with
      | .ok a => .ok a c
      | .error e => .error e c := by
  cases x <;> rfl

theorem writes_orderedAckSend (hA : A.Lawful) {seqNo : Option ℤ}
    (hP : c.entry t q (seqNo.getD (c.nextSeqNo t q)) = none → ∀ out ack,
      P (.register ⟨t, q, seqNo.getD (c.nextSeqNo t q), dest, msg, out, ack⟩)) :
    Writes A P c (final (orderedAckSend A rnd now msg dest q t seqNo c)) := by
  obtain ⟨e, h, -⟩ | ⟨d, h, -, -, hs, hw⟩ := orderedAckSendBegin_spec (A := A) now msg dest q t seqNo c
  · rw [orderedAckSend, bind_apply, h]
    exact .refl c
  · rw [orderedAckSend, bind_apply, h]
    refine (hw P).trans ?_
    simp only [bind_apply, get_apply, ofExcept_apply]
    cases hk : AppPacket.pack A d.kp rnd now ⟨q, seqNo.getD (c.nextSeqNo t q), t, msg⟩ with
    | error e => exact .refl d
    | ok out =>
      obtain ⟨signed, hsig, hout⟩ := AppPacket.pack_eq_ok hA hk
      refine writes_orderedAckSendEnd ⟨now, signed, rnd, hsig, hout⟩ fun hn => hP ?_ out
      rw [← entry_ensureQueue c t q, ← hs.entry]
      exact hn

theorem writes_queueMsg (hA : A.Lawful) {seqNo : Option ℤ}
    (hP : c.entry t q (seqNo.getD (c.nextSeqNo t q)) = none → ∀ out ack,
      P (.register ⟨t, q, seqNo.getD (c.nextSeqNo t q), dest, msg, out, ack⟩)) :
    Writes A P c (final (queueMsg A rnd now msg dest q t seqNo c)) := by
  refine writes_bind (.quiet (sameBook_lastSend c _)) fun _ c₁ h₁ => ?_
  cases h₁
  exact writes_orderedAckSend hA hP

/-- What queueing a message amounts to: nothing but a new queue at most, or one message more. -/
theorem queueMsg_spec (A : Aio KP) (rnd : ℕ) (now : ℚ) (msg : PyMsg) (dest q : String) (t : MsgEnum)
    (seqNo : Option ℤ) (c : MQTTClient KP) :
    SameBook c (final (queueMsg A rnd now msg dest q t seqNo c)) ∨
    ∃ c₁, SameBook (c.ensureQueue t q) c₁ ∧
      (final (queueMsg A rnd now msg dest q t seqNo c) = c₁ ∨
        ∃ d out, c₁.queue t q = some d ∧ final (queueMsg A rnd now msg dest q t seqNo c) =
          c₁.register t q d (c₁.newMeta now dest (seqNo.getD (c.nextSeqNo t q)) out false) msg) := by
  have hl := sameBook_lastSend c (some now)
  have hens : SameBook (c.ensureQueue t q)
      (MQTTClient.ensureQueue { c with lastSend := some now } t q) := by
    unfold MQTTClient.ensureQueue
    split_ifs
    · exact hl
    · exact ⟨rfl, rfl, rfl, rfl, rfl, rfl, le_rfl, rfl, rfl, rfl⟩
  simp only [queueMsg, orderedAckSend, bind_apply, modify_apply]
  obtain ⟨e, h, -⟩ | ⟨d, h, -, -, hs, -⟩ :=
    orderedAckSendBegin_spec (A := A) now msg dest q t seqNo { c with lastSend := some now }
  · rw [h]
    exact .inl hl
  · rw [h]
    right
    refine ⟨d, hens.trans hs, ?_⟩
    simp only [get_apply, ofExcept_apply]
    rw [nextSeqNo_of_queue (hl.queue t q)]
    cases AppPacket.pack A d.kp rnd now ⟨q, seqNo.getD (c.nextSeqNo t q), t, msg⟩ with
    | error e => exact .inl rfl
    | ok out =>
      simp only
      obtain ⟨-, h'⟩ | ⟨m, -, h'⟩ | ⟨dq, hdq, -, h'⟩ :=
        orderedAckSendEnd_spec now msg dest q t (seqNo.getD (c.nextSeqNo t q)) out d
      · rw [h']; exact .inl rfl
      · rw [h']; exact .inl rfl
      · rw [h']; exact .inr ⟨dq, out, hdq, rfl⟩

theorem queueMsgAsyncBegin_spec (now : ℚ) (msg : PyMsg) (dest q : String) (t : MsgEnum) (s : ℤ)
    (c : MQTTClient KP) :
    (∃ e d, queueMsgAsyncBegin A now msg dest q t (some s) c = .error e d ∧
      (∀ P, Writes A P c d) ∧ (q.length = 64 → dest.length = 66 →
        AppPacket.packAsyncBegin A now ⟨q, s, t, msg⟩ = .error e)) ∨
    ∃ signed d, queueMsgAsyncBegin A now msg dest q t (some s) c = .ok (s, signed) d ∧
      AppPacket.Signed A now ⟨q, s, t, msg⟩ (A.toB msg) signed ∧ (∀ P, Writes A P c d) ∧
      (d.queue t q).isSome := by
  have hl : ∀ P, Writes A P c { c with lastSend := some now } :=
    fun P => .quiet (sameBook_lastSend c _)
  simp only [queueMsgAsyncBegin, bind_apply, modify_apply]
  obtain ⟨e, h, -, hne⟩ | ⟨d, h, hq, hd, hs, hw⟩ :=
    orderedAckSendBegin_spec (A := A) now msg dest q t (some s) { c with lastSend := some now }
  · rw [h]
    exact .inl ⟨e, _, rfl, hl, fun hq hd => absurd ⟨hq, hd⟩ hne⟩
  · rw [h]
    simp only [Option.getD_some, ofExcept_apply]
    cases hk : AppPacket.packAsyncBegin A now ⟨q, s, t, msg⟩ with
    | error e => exact .inl ⟨e, d, rfl, fun P => (hl P).trans (hw P), fun _ _ => rfl⟩
    | ok signed =>
      refine .inr ⟨signed, d, rfl, AppPacket.packAsyncBegin_eq_ok hk,
        fun P => (hl P).trans (hw P), ?_⟩
      rw [hs.queue, queue_ensureQueue, if_pos ⟨rfl, rfl⟩]
      rfl

theorem writes_queueMsgAsyncEnd
    (hsig : ∃ now, AppPacket.Signed A now ⟨q, s, t, msg⟩ (A.toB msg) signed)
    (hP : c.entry t q s = none → ∀ ack,
      P (.register ⟨t, q, s, dest, msg, AppPacket.assemble A c.kp rnd signed, ack⟩)) :
    Writes A P c (final (queueMsgAsyncEnd A rnd now msg dest q t s signed c)) := by
  obtain ⟨now', hsig⟩ := hsig
  simp only [queueMsgAsyncEnd, bind_apply, get_apply]
  exact writes_orderedAckSendEnd ⟨now', signed, rnd, hsig, rfl⟩ hP

theorem queueMsgAsyncEnd_entry (A : Aio KP) (rnd : ℕ) (now : ℚ) (msg : PyMsg) (dest : String) (s : ℤ)
    (signed : Bytes) (h : (c.queue t q).isSome) :
    ∃ a, queueMsgAsyncEnd A rnd now msg dest q t s signed c =
        .ok a (final (queueMsgAsyncEnd A rnd now msg dest q t s signed c)) ∧
      ∃ m, (final (queueMsgAsyncEnd A rnd now msg dest q t s signed c)).entry t q s = some m ∧
        (c.entry t q s = some m ∨ c.entry t q s = none ∧ m.destPkHex = dest) := by
  simp only [queueMsgAsyncEnd, bind_apply, get_apply]
  obtain ⟨hn, -⟩ | ⟨m, hm, h'⟩ | ⟨d, hd, hn, h'⟩ := orderedAckSendEnd_spec now msg dest q t s
    (AppPacket.assemble A c.kp rnd signed) c
  · rw [hn] at h; cases h
  · rw [h']
    exact ⟨_, rfl, m, hm, .inl hm⟩
  · rw [h']
    refine ⟨_, rfl, c.newMeta now dest s (AppPacket.assemble A c.kp rnd signed) false, ?_,
      .inr ⟨hn, rfl⟩⟩
    rw [final_ok, entry_register c t q d _ msg hd, if_pos ⟨rfl, rfl, rfl⟩]

theorem writes_registerOneShot_publish (c : MQTTClient KP) (now : ℚ) (dest : String)
    (ht : t ≠ .msg) (hp : ∃ now signed rnd, AppPacket.Signed A now ⟨q, s, t, msg⟩ (A.toB msg) signed ∧
      out = AppPacket.assemble A c.kp rnd signed)
    (hP : ∀ ack, P (.register ⟨t, q, s, dest, msg, out, ack⟩)) {β : Type}
    (res : Except PyExc Unit) (k : ℕ → Publish → ClientM KP β)
    (hk : ∀ a p c, ∃ b, k a p c = .ok b c) :
    Writes A P c (final ((registerOneShot now msg dest q t s out >>= fun a =>
      publish A dest out >>= fun buf => pipeSend res buf >>= fun _ => k a buf) c)) := by
  refine writes_bind ?_ fun a c₁ h₁ => ?_
  · simp only [registerOneShot, bind_apply, get_apply]
    cases hd : c.queue t q with
    | none => exact .refl c
    | some d => exact .register hd rfl (fun h => absurd h ht) hp (hP _)
  · have hm : c₁.entry t q s = some (c.newMeta now dest s out true) := by
      simp only [registerOneShot, bind_apply, get_apply] at h₁
      cases hd : c.queue t q with
      | none => rw [hd] at h₁; cases h₁
      | some d =>
        rw [hd] at h₁
        cases h₁
        rw [entry_register c t q d _ msg hd, if_pos ⟨rfl, rfl, rfl⟩]
    obtain ⟨n, hn⟩ := queueObject_of_entry hm
    have hw := writes_publish_safePipeSend (A := A) (P := P) hn
    change Writes A P c₁ (final ((publish A dest out >>= safePipeSend) c₁)) at hw
    rw [bind_apply] at hw ⊢
    cases hpub : publish A dest out c₁ with
    | error e c₂ => rw [hpub] at hw; exact hw
    | ok p c₂ =>
      rw [hpub] at hw
      change Writes A P c₁ (final (safePipeSend p c₂)) at hw
      rw [← final_pipeSend res] at hw
      change Writes A P c₁ (final ((pipeSend res p >>= fun _ => k a p) c₂))
      rw [bind_apply]
      cases hs : pipeSend res p c₂ with
      | error e c₃ => rw [hs] at hw; exact hw
      | ok u c₃ =>
        rw [hs] at hw
        obtain ⟨b, hb⟩ := hk a p c₃
        simp only [hb]
        exact hw

theorem writes_ofExcept {α β : Type} {x : Except PyExc α} {f : α → ClientM KP β}
    (hf : ∀ a, x = .ok a → Writes A P c (final (f a c))) :
    Writes A P c (final ((ofExcept x >>= f) c)) := by
  cases x with
  | error e => exact .refl c
  | ok a => exact hf a rfl

def probeNumber (c : MQTTClient KP) (q : String) : ℤ :=
  ((c.queue .probe q).map fun d => d.metas.keys.length).getD 0

theorem probeNumber_ensureQueue (c : MQTTClient KP) (q : String) :
    (c.ensureQueue .probe q).probeNumber q = c.probeNumber q := by
  simp only [probeNumber, queue_ensureQueue, and_self, if_true]
  cases c.queue .probe q <;> rfl

theorem writes_sendProbe {res : Except PyExc Unit} (hA : A.Lawful)
    (hP : ∀ out ack, P (.register ⟨.probe, q, c.probeNumber q, dest, .str "", out, ack⟩)) :
    Writes A P c (final (sendProbe A rnd now dest q res c)) := by
  refine writes_ofExcept fun _ _ => ?_
  refine writes_bind (.quiet (sameBook_lastSend c _)) fun _ c₁ h₁ => ?_
  refine writes_bind (.ensureQueue c₁ .probe q) fun _ c₂ h₂ => ?_
  refine writes_bind (.refl c₂) fun c₃ c₄ h₃ => ?_
  have hnumber : c₂.probeNumber q = c.probeNumber q := by
    cases h₁
    cases h₂
    exact probeNumber_ensureQueue ..
  cases h₃
  refine writes_ofExcept fun out hout => ?_
  obtain ⟨signed, hsig, rfl⟩ := AppPacket.pack_eq_ok hA hout
  rw [← hnumber] at hP
  exact writes_registerOneShot_publish _ now dest (by decide) ⟨now, signed, rnd, hsig, rfl⟩ (hP _) res _
    fun _ _ _ => ⟨_, rfl⟩

theorem writes_sendProbeAck {res : Except PyExc Unit} (hA : A.Lawful)
    (hP : c.entry .msgack q s = none → ∀ out ack,
      P (.register ⟨.msgack, q, s, dest, .str "ack", out, ack⟩)) :
    Writes A P c (final (sendProbeAck A rnd now dest q s res c)) := by
  refine writes_bind (.quiet (sameBook_lastSend c _)) fun _ c₁ h₁ => ?_
  refine writes_bind (.ensureQueue c₁ .msgack q) fun _ c₂ h₂ => ?_
  refine writes_bind (.refl c₂) fun c₃ c₄ h₃ => ?_
  have hc : c₂.entry .msgack q s = c.entry .msgack q s := by
    cases h₁; cases h₂; exact entry_ensureQueue ..
  cases h₃
  rw [hc]
  split_ifs with hm
  · exact .refl _
  rw [Option.not_isSome_iff_eq_none] at hm
  refine writes_ofExcept fun out hout => ?_
  obtain ⟨signed, hsig, rfl⟩ := AppPacket.pack_eq_ok hA hout
  have h := writes_registerOneShot_publish c₂ now dest (by decide)
    ⟨now, signed, rnd, hsig, rfl⟩ (hP hm _) res (fun _ _ => pure ()) fun _ _ _ => ⟨(), rfl⟩
  simp only [bind_pure_unit] at h
  exact h

theorem entry_dropOldAcks (c : MQTTClient KP) (q : String) (s : ℤ) (t : MsgEnum) (q' : String)
    (s' : ℤ) : (c.dropOldAcks q s).entry t q' s' =
      if t = .msgack ∧ q' = q ∧ s' < s then none else c.entry t q' s' := by
  unfold dropOldAcks
  cases hd : c.queue .msgack q with
  | none =>
    split_ifs with h
    · rw [h.1, h.2.1, entry, hd]; rfl
    · rfl
  | some d =>
    simp only
    rw [entry_putQueue]
    by_cases h : t = .msgack ∧ q' = q
    · obtain ⟨rfl, rfl⟩ := h
      rw [if_pos ⟨rfl, rfl⟩, PyDict.get?_filter, ← entry_of_queue hd s']
      by_cases hs : s' < s <;> cases c.entry .msgack q' s' <;> simp [hs, Option.filter]
    · rw [if_neg h, if_neg fun h' => h ⟨h'.1, h'.2.1⟩]

theorem writes_dropOldAcks (hP : ∀ s' < s, P (.forget .msgack q s')) :
    Writes A P c (c.dropOldAcks q s) := by
  unfold dropOldAcks
  cases hd : c.queue .msgack q with
  | none => exact .refl c
  | some d =>
    refine .shrink hd ⟨rfl, fun s' m h => (PyDict.get?_of_get?_filter h).1, fun s' m h hn => ?_⟩
    by_cases hs : s' < s
    · exact hP s' hs
    · rw [PyDict.get?_filter, h] at hn
      simp [Option.filter, hs] at hn

theorem processAppMsgBegin_spec (pkt : AppPacket) (c : MQTTClient KP) :
    (c.entry .msgack pkt.queueIdHex pkt.seqNo = none ∧ processAppMsgBegin A pkt c =
        .ok false (c.dropOldAcks pkt.queueIdHex pkt.seqNo)) ∨
      ∃ m, c.entry .msgack pkt.queueIdHex pkt.seqNo = some m ∧
        ((∃ d, processAppMsgBegin A pkt c = .ok true d) ∨
          ∃ e d, processAppMsgBegin A pkt c = .error e d) := by
  have hd := entry_dropOldAcks c pkt.queueIdHex pkt.seqNo .msgack pkt.queueIdHex pkt.seqNo
  rw [if_neg fun h => lt_irrefl _ h.2.2] at hd
  cases hm : c.entry .msgack pkt.queueIdHex pkt.seqNo with
  | none =>
    left
    refine ⟨rfl, ?_⟩
    simp only [processAppMsgBegin, bind_apply, modify_apply, get_apply, hd, hm]
    rfl
  | some m =>
    refine .inr ⟨m, rfl, ?_⟩
    cases h : processAppMsgBegin A pkt c with
    | error e d => exact .inr ⟨e, d, rfl⟩
    | ok b d =>
      cases b with
      | true => exact .inl ⟨d, rfl⟩
      | false =>
        simp only [processAppMsgBegin] at h
        obtain ⟨_, c₁, h₁, h⟩ := bind_eq_ok.mp h
        cases h₁
        obtain ⟨_, c₂, h₂, h⟩ := bind_eq_ok.mp h
        cases h₂
        rw [hd, hm] at h
        obtain ⟨out, c₃, h₃, h⟩ := bind_eq_ok.mp h
        obtain ⟨_, c₄, h₄, h⟩ := bind_eq_ok.mp h
        cases h₄
        split_ifs at h
        · cases h
        · cases h

theorem writes_processAppMsgBegin (hP : ∀ s' < pkt.seqNo, P (.forget .msgack pkt.queueIdHex s')) :
    Writes A P c (final (processAppMsgBegin A pkt c)) := by
  refine writes_bind (writes_dropOldAcks hP) fun _ c₁ h₁ => ?_
  refine writes_bind (.refl c₁) fun _ c₂ h₂ => ?_
  cases h₂
  cases hm : c₁.entry .msgack pkt.queueIdHex pkt.seqNo with
  | none => exact .refl c₁
  | some m =>
    obtain ⟨n, hn⟩ := queueObject_of_entry hm
    refine writes_bind (.quiet (sameBook_publish _ _ c₁)) fun out c₃ h₃ => ?_
    obtain ⟨ht, hp, hs⟩ := publish_eq_ok h₃
    refine writes_bind (.refl c₃) fun _ c₄ h₄ => ?_
    cases h₄
    split_ifs
    · exact .refl c₃
    · rw [← hs.queueObject] at hn
      exact writes_bind (.send hn ht hp) fun _ c₅ _ => .refl c₅

theorem shrinks_erase {dq : Queue} (s : ℤ) (hP : P (.forget t q s)) :
    Shrinks P t q dq { dq with metas := dq.metas.erase s } := by
  refine ⟨rfl, fun s' m h => ?_, fun s' m h hn => ?_⟩
  · rw [PyDict.get?_erase] at h
    split_ifs at h
    exact h
  · rw [PyDict.get?_erase] at hn
    split_ifs at hn with hs
    · exact hs ▸ hP
    · rw [h] at hn; cases hn

theorem writes_deleteEntry (hf : P (.forget t q s)) (hu : P (.unlink t q)) :
    Writes A P c (c.deleteEntry t q s) := by
  unfold deleteEntry
  cases hd : c.queue t q with
  | none => exact .refl c
  | some d =>
    simp only
    split_ifs
    · exact .unlink hd (shrinks_erase s hf) hu
    · exact .shrink hd (shrinks_erase s hf)

theorem writes_ackIn {c' : MQTTClient KP}
    (hP : ∀ m, c.entry t pkt.queueIdHex pkt.seqNo = some m → m.destPkHex = pkt.srcPkHex →
      P (.ack t pkt.queueIdHex pkt.seqNo m) ∧ (m.probeOneShot = true →
        P (.forget t pkt.queueIdHex pkt.seqNo) ∧ P (.unlink t pkt.queueIdHex)))
    (h : c.ackIn pkt t = some c') : Writes A P c c' := by
  unfold ackIn at h
  cases hm : c.entry t pkt.queueIdHex pkt.seqNo with
  | none => rw [hm] at h; cases h
  | some m =>
    rw [hm] at h
    simp only at h
    split_ifs at h with hd hdone ho
    · cases h; exact .refl c
    · cases h
      obtain ⟨ha, hf⟩ := hP m hm (not_not.mp hd)
      exact .trans (.ack hm ha) (writes_deleteEntry (hf ho).1 (hf ho).2)
    · cases h
      exact .ack hm (hP m hm (not_not.mp hd)).1

theorem writes_processAppAck (ht : Tracked A c)
    (hP : ∀ t m, c.entry t pkt.queueIdHex pkt.seqNo = some m → m.destPkHex = pkt.srcPkHex →
      (t = .msg ∨ t = .probe) → P (.ack t pkt.queueIdHex pkt.seqNo m))
    (hf : P (.forget .probe pkt.queueIdHex pkt.seqNo)) (hu : P (.unlink .probe pkt.queueIdHex)) :
    Writes A P c (c.processAppAck pkt) := by
  unfold processAppAck
  cases hm : c.ackIn pkt .msg with
  | some c' =>
    refine writes_ackIn (fun m he hd => ⟨hP .msg m he hd (.inl rfl), fun ho => ?_⟩) hm
    rw [ht.oneShot he] at ho
    cases ho
  | none =>
    cases hp : c.ackIn pkt .probe with
    | some c' =>
      exact writes_ackIn (fun m he hd => ⟨hP .probe m he hd (.inr rfl), fun _ => ⟨hf, hu⟩⟩) hp
    | none => exact .refl c

theorem final_catchLogged {α : Type} (caught : PyExc → Bool) (x : ClientM KP α)
    (c : MQTTClient KP) : final (catchLogged caught x c) = final (x c) := by
  unfold catchLogged
  cases x c with
  | ok a d => rfl
  | error e d => simp only; split_ifs <;> rfl

theorem writes_processAppProbe {res : Except PyExc Unit} (hA : A.Lawful)
    (hP : c.entry .msgack pkt.queueIdHex pkt.seqNo = none → ∀ out ack,
      P (.register ⟨.msgack, pkt.queueIdHex, pkt.seqNo, pkt.srcPkHex, .str "ack", out, ack⟩)) :
    Writes A P c (final (processAppProbe A rnd now pkt res c)) := by
  refine writes_bind (.refl c) fun _ c₁ h₁ => ?_
  cases h₁
  split_ifs
  · exact .refl c
  refine writes_bind ?_ fun _ c₂ _ => .refl c₂
  rw [final_catchLogged]
  exact writes_sendProbeAck hA hP

theorem writes_walkStep {dp : Dispatcher} {draw : ℚ} {g : Gen} {pc : DispatchPc}
    (h : walkStep A dp now draw g c = some (pc, d)) : Writes A P c d := by
  unfold walkStep at h
  cases hg : g.next c with
  | move g' => rw [hg] at h; cases h; exact .refl c
  | stop => rw [hg] at h; cases h; exact .refl c
  | raise e => rw [hg] at h; cases h; exact .refl c
  | yield s m g' =>
    have hm : (c.queueObject g.msgType g.queueIdHex g.ident).get? s = some m := by
      unfold Gen.next at hg
      split at hg
      · split at hg
        · cases hg
        · rename_i hx; cases hg; exact hx
      · split at hg
        · split at hg <;> cases hg
        · split at hg <;> cases hg
    rw [hg] at h
    simp only at h
    split_ifs at h
    · cases h; exact .refl c
    unfold republishMeta at h
    cases hb : currentBackoff dp.interval dp.republishDuration m.attempts with
    | error e =>
      simp only [hb] at h
      split_ifs at h <;> (cases h; exact .refl c)
    | ok backoff =>
    simp only [hb] at h
    split_ifs at h
    · cases h; exact .refl c
    · cases h; exact .refl c
    · cases h; exact .refl c
    · cases h; exact .refl c
    have hm' := queueObject_putMeta { m with updated := now, attempts := m.attempts + 1 } hm
    have hb : Writes A P c (c.putMeta g.msgType g.queueIdHex g.ident s
      { m with updated := now, attempts := m.attempts + 1 }) := .bump hm rfl
    have hw := writes_publish_safePipeSend (A := A) (P := P) hm'
    cases hres : (publish A m.destPkHex m.out >>= safePipeSend)
        (c.putMeta g.msgType g.queueIdHex g.ident s
          { m with updated := now, attempts := m.attempts + 1 }) with
    | ok _ c' =>
      rw [hres] at hw
      simp only [hres] at h
      cases h
      exact hb.trans hw
    | error e c' =>
      rw [hres] at hw
      simp only [hres] at h
      cases h
      exact hb.trans hw

theorem startedAt_walkStep {dp : Dispatcher} {draw : ℚ} {g : Gen} {pc : DispatchPc}
    (h : walkStep A dp now draw g c = some (pc, d)) {n : ℚ} (hn : pc.startedAt = some n) :
    n = now := by
  have hs : ∀ {pc' : DispatchPc} {c'}, some (pc', c') = some (pc, d) →
      (pc'.startedAt = some now ∨ pc'.startedAt = none) → n = now := by
    intro pc' c' he hpc
    cases he
    rw [hn] at hpc
    simpa using hpc
  unfold walkStep at h
  split at h
  · exact hs h (.inl rfl)
  · exact hs h (.inl rfl)
  · exact hs h (.inr rfl)
  · split_ifs at h
    · exact hs h (.inl rfl)
    · split at h
      · cases h
      · exact hs h (.inl rfl)
      · exact hs h (.inl rfl)
      · exact hs h (.inr rfl)

theorem writes_dequeueMsg {seqNo : Option ℤ} (hu : seqNo = none → P (.unlink t q))
    (hr : ∀ s m, seqNo = some s → c.entry t q s = some m → P (.resolve m)) :
    Writes A P c (c.dequeueMsg q seqNo t) := by
  unfold dequeueMsg
  cases hd : c.queue t q with
  | none => exact .refl c
  | some d =>
    cases seqNo with
    | none =>
      refine .unlink hd ⟨rfl, fun _ _ h => h, fun s m h hn => ?_⟩ (hu rfl)
      rw [h] at hn; cases hn
    | some s =>
      simp only
      cases hm : d.metas.get? s with
      | none => exact .refl c
      | some m =>
        have he : c.entry t q s = some m := (entry_of_queue hd s).trans hm
        simp only
        split_ifs
        · exact .refl c
        · exact .resolve he (hr s m rfl he)

end MQTTClient

end Sidewire
