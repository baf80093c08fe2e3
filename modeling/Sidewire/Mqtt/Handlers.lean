import Sidewire.Mqtt.Operations

/-! # The handlers of a client

Only `add_msg_handler` changes the handlers of a client. This holds of every
operation alone, whatever state it finds and however it ends.
-/

namespace Sidewire

namespace MQTTClient

open Exec

variable {KP : Type} {A : Aio KP} {c d : MQTTClient KP} {now : ℚ} {rnd : ℕ} {msg : PyMsg}
  {dest q : String} {t : MsgEnum} {s : ℤ} {out : Bytes} {pkt : AppPacket}

theorem msgHandlers_bind {α β : Type} {x : ClientM KP α} {f : α → ClientM KP β}
    (hx : (final (x c)).msgHandlers = c.msgHandlers)
    (hf : ∀ a d, x c = .ok a d → (final (f a d)).msgHandlers = d.msgHandlers) :
    (final ((x >>= f) c)).msgHandlers = c.msgHandlers :=
  rel_final_bind (fun c d : MQTTClient KP => d.msgHandlers = c.msgHandlers)
    (fun h h' => h'.trans h) hx hf

theorem msgHandlers_ofExcept {α : Type} (x : Except PyExc α) (c : MQTTClient KP) :
    (final (ofExcept x c)).msgHandlers = c.msgHandlers := by
  cases x <;> rfl

theorem msgHandlers_publish (topic : String) (payload : Bytes) (c : MQTTClient KP) :
    (final (publish A topic payload c)).msgHandlers = c.msgHandlers :=
  (sameBook_publish topic payload c).msgHandlers

theorem msgHandlers_safePipeSend (p : Publish) (c : MQTTClient KP) :
    (final (safePipeSend p c)).msgHandlers = c.msgHandlers := by
  simp only [safePipeSend, bind_apply, get_apply]
  split_ifs <;> rfl

theorem msgHandlers_pipeSend (res : Except PyExc Unit) (p : Publish) (c : MQTTClient KP) :
    (final (pipeSend res p c)).msgHandlers = c.msgHandlers := by
  rw [final_pipeSend]
  exact msgHandlers_safePipeSend p c

theorem msgHandlers_orderedAckSendBegin (now : ℚ) (msg : PyMsg) (dest q : String) (t : MsgEnum)
    (seqNo : Option ℤ) (c : MQTTClient KP) :
    (final (orderedAckSendBegin A now msg dest q t seqNo c)).msgHandlers = c.msgHandlers := by
  obtain ⟨e, h, -⟩ | ⟨d, h, -, -, -, hw⟩ :=
    orderedAckSendBegin_spec (A := A) now msg dest q t seqNo c
  · rw [h]
    rfl
  · rw [h]
    exact (hw fun _ => False).msgHandlers fun _ h => h

theorem msgHandlers_orderedAckSendEnd (now : ℚ) (msg : PyMsg) (dest q : String) (t : MsgEnum)
    (s : ℤ) (out : Bytes) (c : MQTTClient KP) :
    (final (orderedAckSendEnd now msg dest q t s out c)).msgHandlers = c.msgHandlers := by
  obtain ⟨-, h⟩ | ⟨m, -, h⟩ | ⟨d, -, -, h⟩ := orderedAckSendEnd_spec now msg dest q t s out c <;>
  · rw [h]
    rfl

theorem msgHandlers_queueMsg (seqNo : Option ℤ) (c : MQTTClient KP) :
    (final (queueMsg A rnd now msg dest q t seqNo c)).msgHandlers = c.msgHandlers := by
  apply msgHandlers_bind
  · rfl
  · rintro _ c₁ -
    apply msgHandlers_bind (msgHandlers_orderedAckSendBegin ..)
    rintro s c₂ -
    apply msgHandlers_bind
    · rfl
    · rintro _ c₃ -
      apply msgHandlers_bind (msgHandlers_ofExcept ..)
      rintro out c₄ -
      exact msgHandlers_orderedAckSendEnd ..

theorem msgHandlers_queueMsgAsyncEnd (signed : Bytes) (c : MQTTClient KP) :
    (final (queueMsgAsyncEnd A rnd now msg dest q t s signed c)).msgHandlers = c.msgHandlers := by
  apply msgHandlers_bind
  · rfl
  · rintro _ c₁ -
    exact msgHandlers_orderedAckSendEnd ..

theorem msgHandlers_registerOneShot (c : MQTTClient KP) :
    (final (registerOneShot now msg dest q t s out c)).msgHandlers = c.msgHandlers := by
  simp only [registerOneShot, bind_apply, get_apply]
  cases c.queue t q <;> rfl

theorem msgHandlers_ensureQueue_modify (t : MsgEnum) (q : String) (c : MQTTClient KP) :
    (final ((modify fun c => c.ensureQueue t q : ClientM KP Unit) c)).msgHandlers =
      c.msgHandlers :=
  (ensureQueue_marks c t q).2.2

theorem msgHandlers_registerOneShot_publish {β : Type} (k : ℕ → Publish → ClientM KP β)
    (hk : ∀ a p c, (final (k a p c)).msgHandlers = c.msgHandlers) (c : MQTTClient KP) :
    (final ((registerOneShot now msg dest q t s out >>= fun a =>
      publish A dest out >>= fun buf => k a buf) c)).msgHandlers = c.msgHandlers := by
  apply msgHandlers_bind (msgHandlers_registerOneShot c)
  rintro a c₁ -
  apply msgHandlers_bind (msgHandlers_publish dest out c₁)
  rintro p c₂ -
  exact hk a p c₂

theorem msgHandlers_sendProbe (res : Except PyExc Unit) (c : MQTTClient KP) :
    (final (sendProbe A rnd now dest q res c)).msgHandlers = c.msgHandlers := by
  apply msgHandlers_bind (msgHandlers_ofExcept ..)
  rintro _ c₁ -
  apply msgHandlers_bind
  · rfl
  · rintro _ c₂ -
    apply msgHandlers_bind (msgHandlers_ensureQueue_modify ..)
    rintro _ c₃ -
    apply msgHandlers_bind
    · rfl
    · rintro c₄ c₅ -
      apply msgHandlers_bind (msgHandlers_ofExcept ..)
      rintro out c₆ -
      apply msgHandlers_registerOneShot_publish
      rintro a p c₇
      apply msgHandlers_bind (msgHandlers_pipeSend res p c₇)
      rintro _ c₈ -
      rfl

theorem msgHandlers_sendProbeAck (res : Except PyExc Unit) (c : MQTTClient KP) :
    (final (sendProbeAck A rnd now dest q s res c)).msgHandlers = c.msgHandlers := by
  apply msgHandlers_bind
  · rfl
  · rintro _ c₁ -
    apply msgHandlers_bind (msgHandlers_ensureQueue_modify ..)
    rintro _ c₂ -
    apply msgHandlers_bind
    · rfl
    · rintro c₃ c₄ -
      split_ifs
      · rfl
      · apply msgHandlers_bind (msgHandlers_ofExcept ..)
        rintro out c₅ -
        exact msgHandlers_registerOneShot_publish _ (fun _ p c₆ => msgHandlers_pipeSend res p c₆) c₅

theorem msgHandlers_processAppProbe (res : Except PyExc Unit) (c : MQTTClient KP) :
    (final (processAppProbe A rnd now pkt res c)).msgHandlers = c.msgHandlers := by
  apply msgHandlers_bind
  · rfl
  · rintro c₁ c₂ -
    split_ifs
    · rfl
    · apply msgHandlers_bind
      · rw [final_catchLogged]
        exact msgHandlers_sendProbeAck res c₂
      · rintro _ c₃ -
        rfl

theorem msgHandlers_deleteEntry (c : MQTTClient KP) (t : MsgEnum) (q : String) (s : ℤ) :
    (c.deleteEntry t q s).msgHandlers = c.msgHandlers := by
  unfold deleteEntry
  cases c.queue t q with
  | none => rfl
  | some d =>
    simp only
    split_ifs <;> rfl

theorem msgHandlers_ackIn (h : c.ackIn pkt t = some d) : d.msgHandlers = c.msgHandlers := by
  unfold ackIn at h
  cases hm : c.entry t pkt.queueIdHex pkt.seqNo with
  | none =>
    rw [hm] at h
    cases h
  | some m =>
    rw [hm] at h
    simp only at h
    split_ifs at h
    · cases h
      rfl
    · cases h
      exact msgHandlers_deleteEntry ..
    · cases h
      rfl

theorem msgHandlers_processAppAck (c : MQTTClient KP) (pkt : AppPacket) :
    (c.processAppAck pkt).msgHandlers = c.msgHandlers := by
  unfold processAppAck
  cases hm : c.ackIn pkt .msg with
  | some d => exact msgHandlers_ackIn hm
  | none =>
    cases hp : c.ackIn pkt .probe with
    | some d => exact msgHandlers_ackIn hp
    | none => rfl

end MQTTClient

end Sidewire
