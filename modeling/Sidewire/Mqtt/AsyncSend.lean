import Sidewire.Lib.Machine
import Sidewire.Mqtt.Concrete
import Sidewire.Mqtt.Operations

/-! # Concurrent calls on one queue

Calls of `queue_msg_async` on one queue, suspended at their signatures, among
other calls on that queue. They amount to the same calls made one at a time, in
the order in which they return, as long as the number each of them chose is
still the next one when its signature arrives.
-/

namespace Sidewire

inductive Call
  | send (rnd : ℕ) (now now' : ℚ) (msg : PyMsg) (dest : String) (seqNo : Option ℤ)
  | dequeue
  deriving DecidableEq

inductive Outcome
  | sent (key : String × ℤ) (appAck : ℕ)
  | dequeued
  | raised (e : PyExc)
  deriving DecidableEq

def Outcome.core : Outcome → Outcome
  | .sent key _ => .sent key 0
  | o => o

/-- A call of `queue_msg_async` that waits for its signature. -/
structure Signing where
  now : ℚ
  msg : PyMsg
  dest : String
  seqNo : ℤ
  signed : Bytes

/-- A client, the calls suspended on it and, as history, the calls that ended. -/
structure Callers (KP : Type) where
  client : MQTTClient KP
  signing : List Signing
  log : List (Call × Outcome)

inductive CallAction
  | queueMsgAsync (now : ℚ) (msg : PyMsg) (dest : String)
  | signed (k rnd : ℕ) (now : ℚ)
  | queueMsg (rnd : ℕ) (now : ℚ) (msg : PyMsg) (dest : String) (seqNo : Option ℤ)
  | dequeueMsg

namespace MQTTClient

open Exec

variable {KP : Type} (A : Aio KP)

/-- `ordered_ack_send` with the two readings of the clock around the signature. -/
def orderedAckSendAt (rnd : ℕ) (now now' : ℚ) (msg : PyMsg) (dest q : String) (t : MsgEnum)
    (seqNo : Option ℤ) : ClientM KP ((String × ℤ) × ℕ) := do
  let s ← orderedAckSendBegin A now msg dest q t seqNo
  let c ← get
  let out ← ofExcept (AppPacket.pack A c.kp rnd now ⟨q, s, t, msg⟩)
  orderedAckSendEnd now' msg dest q t s out

theorem orderedAckSend_eq (rnd : ℕ) (now : ℚ) (msg : PyMsg) (dest q : String) (t : MsgEnum)
    (seqNo : Option ℤ) : orderedAckSend A rnd now msg dest q t seqNo =
      orderedAckSendAt A rnd now now msg dest q t seqNo := rfl

end MQTTClient

open MQTTClient

variable {KP : Type} {A : Aio KP} {t : MsgEnum} {q : String}

def Outcome.of {ε : Type} (r : EStateM.Result PyExc ε ((String × ℤ) × ℕ)) : Outcome × ε :=
  match r with
  | .ok (key, appAck) c => (.sent key appAck, c)
  | .error e c => (.raised e, c)

namespace Call

def exec (A : Aio KP) (t : MsgEnum) (q : String) : Call → MQTTClient KP → Outcome × MQTTClient KP
  | .send rnd now now' msg dest seqNo, c =>
    Outcome.of (orderedAckSendAt A rnd now now' msg dest q t seqNo c)
  | .dequeue, c => (.dequeued, c.dequeueMsg q none t)

def execAll (A : Aio KP) (t : MsgEnum) (q : String) :
    List Call → MQTTClient KP → List Outcome × MQTTClient KP
  | [], c => ([], c)
  | x :: xs, c =>
    let (o, c) := x.exec A t q c
    let (os, c) := execAll A t q xs c
    (o :: os, c)

end Call

namespace Callers

/-- The next move of the calls on the queue `q`. -/
def step (A : Aio KP) (t : MsgEnum) (q : String) (r : Callers KP) : CallAction → Option (Callers KP)
  | .queueMsgAsync now msg dest =>
    match queueMsgAsyncBegin A now msg dest q t none r.client with
    | .ok (seqNo, signed) c =>
      some { r with client := c, signing := r.signing ++ [⟨now, msg, dest, seqNo, signed⟩] }
    | .error e c =>
      some { r with client := c, log := r.log ++ [(.send 0 now now msg dest none, .raised e)] }
  | .signed k rnd now =>
    match r.signing[k]? with
    | none => none
    | some x =>
      let (o, c) := Outcome.of (queueMsgAsyncEnd A rnd now x.msg x.dest q t x.seqNo x.signed r.client)
      some
        { client := c, signing := r.signing.eraseIdx k
          log := r.log ++ [(.send rnd x.now now x.msg x.dest none, o)] }
  | .queueMsg rnd now msg dest seqNo =>
    let (o, c) := Outcome.of (MQTTClient.queueMsg A rnd now msg dest q t seqNo r.client)
    some { r with client := c, log := r.log ++ [(.send rnd now now msg dest seqNo, o)] }
  | .dequeueMsg =>
    some { r with
      client := r.client.dequeueMsg q none t, log := r.log ++ [(.dequeue, .dequeued)] }

/-- The queue is there and the number chosen is still the next one when a signature arrives. -/
def Undisturbed (t : MsgEnum) (q : String) (r : Callers KP) (a : CallAction) : Prop :=
  ∀ k rnd now x, a = .signed k rnd now → r.signing[k]? = some x →
    (r.client.queue t q).isSome ∧ r.client.nextSeqNo t q = x.seqNo

end Callers

/-- Two clients whose tables hold the same messages, up to the identities of the futures. -/
structure SameQueues (c d : MQTTClient KP) : Prop where
  queue : ∀ t q, (d.queue t q).isSome = (c.queue t q).isSome
  entry : ∀ t q s, (d.entry t q s).map (fun m => { m with appAck := 0 }) =
    (c.entry t q s).map fun m => { m with appAck := 0 }

def defaultFuture : Call × Outcome → Option ℕ
  | (.send _ _ _ _ _ none, .sent _ appAck) => some appAck
  | _ => none

/-- The calls that ended have the outcomes of some sequential execution, which leaves the same
queues. Every call with a default number has registered its own message, under the key it returned
and with a future of its own. -/
structure Linearizable (A : Aio KP) (t : MsgEnum) (q : String) (c : MQTTClient KP) (r : Callers KP) :
    Prop where
  order : ∃ l : List (Call × Outcome), l.Perm r.log ∧
    (Call.execAll A t q (l.map Prod.fst) c).1.map Outcome.core =
      l.map (Outcome.core ∘ Prod.snd) ∧
    SameQueues (Call.execAll A t q (l.map Prod.fst) c).2 r.client
  registered : ∀ {rnd now now' msg dest key appAck},
    (Call.send rnd now now' msg dest none, Outcome.sent key appAck) ∈ r.log →
      ∃ out, ⟨t, key.1, key.2, dest, msg, out, appAck⟩ ∈ r.client.queued
  futures : (r.log.filterMap defaultFuture).Nodup

section Exec

open Exec

variable {c c' d d' e e' : MQTTClient KP} {rnd : ℕ} {now now' : ℚ} {msg : PyMsg} {dest : String}
  {seqNo : Option ℤ} {s : ℤ} {out signed : Bytes} {err : PyExc} {o : Outcome}

theorem pack_eq_map (hA : A.Lawful) (kp : KP) (rnd : ℕ) (now : ℚ) (d : Draft) :
    AppPacket.pack A kp rnd now d =
      (AppPacket.packAsyncBegin A now d).map (AppPacket.assemble A kp rnd) := by
  have hmsg : (if d.msg.truthy then A.toB d.msg else []) = A.toB d.msg := by
    split_ifs with h
    · rfl
    · exact (hA.toB_of_not_truthy (by simpa using h)).symm
  simp only [AppPacket.pack, AppPacket.packAsyncBegin, hmsg]
  cases AppPacket.signedMsg A now d (A.toB d.msg) <;> rfl

theorem orderedAckSendBegin_of_error (h : checkLengths dest q = .error err) (now : ℚ) (msg : PyMsg)
    (c : MQTTClient KP) :
    orderedAckSendBegin A now msg dest q t seqNo c = .error err c := by
  simp only [orderedAckSendBegin, h]
  rfl

theorem orderedAckSendBegin_of_ok (h : checkLengths dest q = .ok ()) (now : ℚ) (msg : PyMsg)
    (t : MsgEnum) (seqNo : Option ℤ) (c : MQTTClient KP) :
    ∃ d, orderedAckSendBegin A now msg dest q t seqNo c =
      .ok (seqNo.getD (c.nextSeqNo t q)) d ∧ SameBook (c.ensureQueue t q) d := by
  obtain ⟨e, he, -, hne⟩ | ⟨d, hd, -, -, hs, -⟩ :=
    orderedAckSendBegin_spec (A := A) now msg dest q t seqNo c
  · exfalso
    unfold checkLengths at h
    split_ifs at h with hq hdest
    exact hne ⟨not_not.mp hq, not_not.mp hdest⟩
  · exact ⟨d, hd, hs⟩

theorem orderedAckSendAt_cases (hA : A.Lawful) (rnd : ℕ) (now now' : ℚ) (msg : PyMsg)
    (dest : String) (seqNo : Option ℤ) (c : MQTTClient KP) :
    (∃ err, checkLengths dest q = .error err ∧
      orderedAckSendAt A rnd now now' msg dest q t seqNo c = .error err c) ∨
    checkLengths dest q = .ok () ∧ ∃ d, SameBook (c.ensureQueue t q) d ∧
      ((∃ err, AppPacket.packAsyncBegin A now ⟨q, seqNo.getD (c.nextSeqNo t q), t, msg⟩ =
          .error err ∧ orderedAckSendAt A rnd now now' msg dest q t seqNo c = .error err d) ∨
        ∃ signed, AppPacket.packAsyncBegin A now ⟨q, seqNo.getD (c.nextSeqNo t q), t, msg⟩ =
          .ok signed ∧ orderedAckSendAt A rnd now now' msg dest q t seqNo c =
            orderedAckSendEnd now' msg dest q t (seqNo.getD (c.nextSeqNo t q))
              (AppPacket.assemble A d.kp rnd signed) d) := by
  cases hl : checkLengths dest q with
  | error err =>
    refine .inl ⟨err, rfl, ?_⟩
    rw [orderedAckSendAt, bind_apply, orderedAckSendBegin_of_error hl]
  | ok =>
    right
    obtain ⟨d, hd, hs⟩ := orderedAckSendBegin_of_ok (A := A) hl now msg t seqNo c
    refine ⟨rfl, d, hs, ?_⟩
    rw [orderedAckSendAt, bind_apply, hd]
    simp only [bind_apply, get_apply, ofExcept_apply, pack_eq_map hA]
    cases AppPacket.packAsyncBegin A now ⟨q, seqNo.getD (c.nextSeqNo t q), t, msg⟩ with
    | error err => exact .inl ⟨err, rfl, rfl⟩
    | ok signed => exact .inr ⟨signed, rfl, rfl⟩

theorem orderedAckSendAt_of_begin_error (hA : A.Lawful) (rnd : ℕ) (now' : ℚ)
    (h : queueMsgAsyncBegin A now msg dest q t seqNo c = .error err c') :
    orderedAckSendAt A rnd now now' msg dest q t seqNo { c with lastSend := some now } =
      .error err c' := by
  simp only [queueMsgAsyncBegin, bind_apply, modify_apply] at h
  rw [orderedAckSendAt, bind_apply]
  cases hb : orderedAckSendBegin A now msg dest q t seqNo { c with lastSend := some now } with
  | error e d =>
    rw [hb] at h
    cases h
    rfl
  | ok s d =>
    rw [hb] at h
    simp only [ofExcept_apply] at h
    simp only [bind_apply, get_apply, ofExcept_apply, pack_eq_map hA]
    cases hp : AppPacket.packAsyncBegin A now ⟨q, s, t, msg⟩ with
    | error e =>
      rw [hp] at h
      cases h
      rfl
    | ok signed =>
      rw [hp] at h
      cases h

theorem queueMsgAsyncBegin_eq_ok {x : ℤ × Bytes}
    (h : queueMsgAsyncBegin A now msg dest q t none c = .ok x c') :
    checkLengths dest q = .ok () ∧ AppPacket.packAsyncBegin A now ⟨q, x.1, t, msg⟩ = .ok x.2 ∧
      SameBook (MQTTClient.ensureQueue { c with lastSend := some now } t q) c' := by
  simp only [queueMsgAsyncBegin, bind_apply, modify_apply] at h
  cases hl : checkLengths dest q with
  | error err =>
    rw [orderedAckSendBegin_of_error hl] at h
    cases h
  | ok =>
    obtain ⟨d, hd, hs⟩ := orderedAckSendBegin_of_ok (A := A) hl now msg t none
      { c with lastSend := some now }
    rw [hd] at h
    simp only [ofExcept_apply] at h
    cases hp : AppPacket.packAsyncBegin A now ⟨q, Option.getD none
        (MQTTClient.nextSeqNo { c with lastSend := some now } t q), t, msg⟩ with
    | error e =>
      rw [hp] at h
      cases h
    | ok signed =>
      rw [hp] at h
      cases h
      exact ⟨rfl, hp, hs⟩

structure Follows (t : MsgEnum) (q : String) (c d : MQTTClient KP) : Prop where
  kp : d.kp = c.kp
  entry : ∀ t q s, (d.entry t q s).map (fun m => { m with appAck := 0 }) =
    (c.entry t q s).map fun m => { m with appAck := 0 }
  queue : ∀ t q, (c.queue t q).isSome → (d.queue t q).isSome
  others : ∀ t' q', (d.queue t' q').isSome → (c.queue t' q').isSome ∨ t' = t ∧ q' = q

namespace Follows

theorem of_sameBook (h : SameBook c d) : Follows t q c d :=
  ⟨h.kp, fun t q s => by rw [h.entry], fun t q => by rw [h.queue]; exact id,
    fun t' q' => by rw [h.queue]; exact .inl⟩

theorem of_sameBook' (h : SameBook c d) : Follows t q d c :=
  ⟨h.kp.symm, fun t q s => by rw [h.entry], fun t q => by rw [h.queue]; exact id,
    fun t' q' => by rw [h.queue]; exact .inl⟩

theorem trans (h : Follows t q c d) (h' : Follows t q d e) : Follows t q c e :=
  ⟨h'.kp.trans h.kp, fun t q s => (h'.entry t q s).trans (h.entry t q s),
    fun t q hq => h'.queue t q (h.queue t q hq),
    fun t' q' hq => (h'.others t' q' hq).elim (h.others t' q') .inr⟩

theorem isSome_entry (h : Follows t q c d) (t' : MsgEnum) (q' : String) (s : ℤ) :
    (d.entry t' q' s).isSome = (c.entry t' q' s).isSome := by
  have := congrArg Option.isSome (h.entry t' q' s)
  simpa only [Option.isSome_map] using this

theorem nextSeqNo (h : Follows t q c d) : d.nextSeqNo t q = c.nextSeqNo t q := by
  obtain ⟨hn, hz⟩ | ⟨n, hn, hle, hz⟩ := nextSeqNo_cases c t q <;>
  obtain ⟨hn', hz'⟩ | ⟨n', hn', hle', hz'⟩ := nextSeqNo_cases d t q
  · omega
  · rw [h.isSome_entry, hn] at hn'
    cases hn'
  · rw [← h.isSome_entry, hn'] at hn
    cases hn
  · have h₁ := hle n' (by rwa [← h.isSome_entry])
    have h₂ := hle' n (by rwa [h.isSome_entry])
    omega

theorem ensureQueue_right (h : Follows t q c d) : Follows t q c (d.ensureQueue t q) := by
  refine ⟨?_, ?_, ?_, ?_⟩
  · rw [← h.kp]
    unfold MQTTClient.ensureQueue
    split_ifs <;> rfl
  · intro t' q' s
    rw [entry_ensureQueue]
    exact h.entry t' q' s
  · intro t' q' hq
    rw [queue_ensureQueue]
    split_ifs
    · rfl
    · exact h.queue t' q' hq
  · intro t' q' hq
    rw [queue_ensureQueue] at hq
    split_ifs at hq with he
    · exact .inr he
    · exact h.others t' q' hq

theorem isSome_ensureQueue (c : MQTTClient KP) (t : MsgEnum) (q : String) :
    ((c.ensureQueue t q).queue t q).isSome := by
  rw [queue_ensureQueue, if_pos ⟨rfl, rfl⟩]
  rfl

theorem ensureQueue (h : Follows t q c d) : Follows t q (c.ensureQueue t q) (d.ensureQueue t q) := by
  have hr := h.ensureQueue_right
  refine ⟨?_, ?_, ?_, ?_⟩
  · rw [hr.kp]
    unfold MQTTClient.ensureQueue
    split_ifs <;> rfl
  · intro t' q' s
    rw [entry_ensureQueue c]
    exact hr.entry t' q' s
  · intro t' q' hq
    rw [queue_ensureQueue] at hq
    split_ifs at hq with he
    · rw [he.1, he.2]
      exact isSome_ensureQueue d t q
    · exact hr.queue t' q' hq
  · intro t' q' hq
    rcases hr.others t' q' hq with hq | he
    · left
      rw [queue_ensureQueue]
      split_ifs
      · rfl
      · exact hq
    · exact .inr he

theorem dequeue (h : Follows t q c d) :
    Follows t q (c.dequeueMsg q none t) (d.dequeueMsg q none t) ∧
      ((c.dequeueMsg q none t).queue t q).isSome = false ∧
      ((d.dequeueMsg q none t).queue t q).isSome = false := by
  have gone : ∀ (c : MQTTClient KP) t' q', (c.dequeueMsg q none t).queue t' q' =
      if t' = t ∧ q' = q then none else c.queue t' q' := by
    intro c t' q'
    unfold MQTTClient.dequeueMsg
    cases hd : c.queue t q with
    | none =>
      simp only
      split_ifs with he
      · rw [he.1, he.2, hd]
      · rfl
    | some d => exact queue_unlinkQueue ..
  have hkp : ∀ c : MQTTClient KP, (c.dequeueMsg q none t).kp = c.kp := by
    intro c
    unfold MQTTClient.dequeueMsg
    cases c.queue t q <;> rfl
  refine ⟨⟨?_, ?_, ?_, ?_⟩, ?_, ?_⟩
  · rw [hkp, hkp, h.kp]
  · intro t' q' s
    rw [MQTTClient.entry, MQTTClient.entry, gone, gone]
    split_ifs
    · rfl
    · exact h.entry t' q' s
  · intro t' q' hq
    rw [gone] at hq ⊢
    split_ifs at hq ⊢
    · cases hq
    · exact h.queue t' q' hq
  · intro t' q' hq
    rw [gone] at hq
    split_ifs at hq with he
    · cases hq
    rcases h.others t' q' hq with hq | he'
    · left
      rwa [gone, if_neg he]
    · exact .inr he'
  · rw [gone, if_pos ⟨rfl, rfl⟩]
    rfl
  · rw [gone, if_pos ⟨rfl, rfl⟩]
    rfl

theorem orderedAckSendEnd (h : Follows t q c d) (hc : (c.queue t q).isSome)
    (now : ℚ) (msg : PyMsg) (dest : String) (s : ℤ) (out : Bytes) :
    (Outcome.of (orderedAckSendEnd now msg dest q t s out c)).1.core =
      (Outcome.of (orderedAckSendEnd now msg dest q t s out d)).1.core ∧
    Follows t q (Outcome.of (MQTTClient.orderedAckSendEnd now msg dest q t s out c)).2
      (Outcome.of (MQTTClient.orderedAckSendEnd now msg dest q t s out d)).2 ∧
    ((Outcome.of (MQTTClient.orderedAckSendEnd now msg dest q t s out c)).2.queue t q).isSome := by
  have hsome := h.isSome_entry t q s
  obtain ⟨hn, -⟩ | ⟨m, hm, hx⟩ | ⟨dq, hdq, hn, hx⟩ := orderedAckSendEnd_spec now msg dest q t s out c
  · rw [hn] at hc
    cases hc
  · obtain ⟨hn, -⟩ | ⟨m', hm', hy⟩ | ⟨-, -, hn, -⟩ := orderedAckSendEnd_spec now msg dest q t s out d
    · have := h.queue t q hc
      rw [hn] at this
      cases this
    · rw [hx, hy]
      exact ⟨rfl, h, hc⟩
    · rw [hn, hm] at hsome
      cases hsome
  · obtain ⟨hn', -⟩ | ⟨m', hm', -⟩ | ⟨dq', hdq', hn', hy⟩ :=
      orderedAckSendEnd_spec now msg dest q t s out d
    · have := h.queue t q hc
      rw [hn'] at this
      cases this
    · rw [hn, hm'] at hsome
      cases hsome
    · rw [hx, hy]
      have hq : ∀ (e : MQTTClient KP) dq m t' q', (e.register t q dq m msg).queue t' q' =
          if t' = t ∧ q' = q then some { dq with metas := dq.metas.set m.seqNo m }
          else e.queue t' q' := fun e dq m t' q' => queue_putQueue e t q _ t' q'
      refine ⟨rfl, ⟨h.kp, ?_, ?_, ?_⟩, ?_⟩
      · intro t' q' s'
        simp only [Outcome.of]
        rw [entry_register d t q dq' _ msg hdq', entry_register c t q dq _ msg hdq]
        change Option.map _ (if t' = t ∧ q' = q ∧ s' = s then _ else _) =
          Option.map _ (if t' = t ∧ q' = q ∧ s' = s then _ else _)
        split_ifs
        · rfl
        · exact h.entry t' q' s'
      · intro t' q' hq'
        simp only [Outcome.of, hq] at hq' ⊢
        split_ifs at hq' ⊢
        · rfl
        · exact h.queue t' q' hq'
      · intro t' q' hq'
        simp only [Outcome.of, hq] at hq' ⊢
        split_ifs at hq' ⊢ with he
        · exact .inl rfl
        · exact h.others t' q' hq'
      · simp only [Outcome.of, hq]
        rfl

theorem exec (hA : A.Lawful) (h : Follows t q c d) (x : Call) :
    (x.exec A t q c).1.core = (x.exec A t q d).1.core ∧
    Follows t q (x.exec A t q c).2 (x.exec A t q d).2 ∧
    ((d.queue t q).isSome = (c.queue t q).isSome →
      ((x.exec A t q d).2.queue t q).isSome = ((x.exec A t q c).2.queue t q).isSome) := by
  cases x with
  | dequeue =>
    obtain ⟨hf, hc, hd⟩ := h.dequeue
    exact ⟨rfl, hf, fun _ => hd.trans hc.symm⟩
  | send rnd now now' msg dest seqNo =>
    have hs : seqNo.getD (d.nextSeqNo t q) = seqNo.getD (c.nextSeqNo t q) := by rw [h.nextSeqNo]
    obtain ⟨err, he, hx⟩ | ⟨hl, c₁, hc₁, hx⟩ :=
      orderedAckSendAt_cases (t := t) (q := q) hA rnd now now' msg dest seqNo c
    · obtain ⟨err', he', hy⟩ | ⟨hl, -⟩ :=
        orderedAckSendAt_cases (t := t) (q := q) hA rnd now now' msg dest seqNo d
      · rw [he] at he'
        cases he'
        rw [Call.exec, Call.exec, hx, hy]
        exact ⟨rfl, h, id⟩
      · rw [he] at hl
        cases hl
    · obtain ⟨err, he, -⟩ | ⟨-, d₁, hd₁, hy⟩ :=
        orderedAckSendAt_cases (t := t) (q := q) hA rnd now now' msg dest seqNo d
      · rw [he] at hl
        cases hl
      have hf : Follows t q c₁ d₁ :=
        ((of_sameBook' hc₁).trans h.ensureQueue).trans (of_sameBook hd₁)
      have hq : (c₁.queue t q).isSome := by
        rw [hc₁.queue]
        exact isSome_ensureQueue c t q
      rw [hs] at hy
      rw [Call.exec, Call.exec]
      obtain ⟨err, he, hx⟩ | ⟨signed, hp, hx⟩ := hx
      · obtain ⟨err', he', hy⟩ | ⟨signed, hp, -⟩ := hy
        · rw [he] at he'
          cases he'
          rw [hx, hy]
          exact ⟨rfl, hf, fun _ => (hf.queue t q hq).trans hq.symm⟩
        · rw [he] at hp
          cases hp
      · obtain ⟨err', he', -⟩ | ⟨signed', hp', hy⟩ := hy
        · rw [hp] at he'
          cases he'
        · rw [hp] at hp'
          cases hp'
          rw [hx, hy, hf.kp]
          obtain ⟨ho, hf', hq'⟩ := hf.orderedAckSendEnd hq now' msg dest
            (seqNo.getD (c.nextSeqNo t q)) (AppPacket.assemble A c₁.kp rnd signed)
          exact ⟨ho, hf', fun _ => (hf'.queue t q hq').trans hq'.symm⟩

end Follows

/-- The call that a suspended one amounts to when its signature arrives. -/
def Signing.call (x : Signing) (rnd : ℕ) (now : ℚ) : Call :=
  .send rnd x.now now x.msg x.dest none

def Signing.Holds (A : Aio KP) (t : MsgEnum) (q : String) (x : Signing) : Prop :=
  checkLengths x.dest q = .ok () ∧
    AppPacket.packAsyncBegin A x.now ⟨q, x.seqNo, t, x.msg⟩ = .ok x.signed

/-- If its number is still the next one, a suspended call ends as the whole call would if it were
made now. -/
theorem Signing.exec (hA : A.Lawful) {x : Signing} (hx : x.Holds A t q)
    (hq : (c.queue t q).isSome) (hn : c.nextSeqNo t q = x.seqNo) (rnd : ℕ) (now : ℚ) :
    ((x.call rnd now).exec A t q c).1.core = (Outcome.of (queueMsgAsyncEnd A rnd now x.msg x.dest q t
      x.seqNo x.signed c)).1.core ∧
    Follows t q ((x.call rnd now).exec A t q c).2 (Outcome.of (queueMsgAsyncEnd A rnd now x.msg
      x.dest q t x.seqNo x.signed c)).2 ∧
    (((x.call rnd now).exec A t q c).2.queue t q).isSome := by
  rw [Signing.call, Call.exec]
  obtain ⟨err, he, -⟩ | ⟨-, d, hd, ⟨err, hp, -⟩ | ⟨signed, hp, hy⟩⟩ :=
    orderedAckSendAt_cases (t := t) (q := q) hA rnd x.now now x.msg x.dest none c
  · rw [hx.1] at he
    cases he
  · rw [Option.getD_none, hn, hx.2] at hp
    cases hp
  · rw [Option.getD_none, hn] at hp hy
    rw [hx.2] at hp
    cases hp
    have hc : c.ensureQueue t q = c := by
      unfold MQTTClient.ensureQueue
      rw [if_pos]
      exact contains_iff_queue.mpr (Option.isSome_iff_exists.mp hq)
    rw [hc] at hd
    have hf : Follows t q d c := .of_sameBook' hd
    rw [hy, hd.kp]
    simp only [queueMsgAsyncEnd, bind_apply, get_apply]
    exact hf.orderedAckSendEnd (by rwa [hd.queue]) now x.msg x.dest x.seqNo _

theorem execAll_concat (xs : List Call) (x : Call) (c : MQTTClient KP) :
    Call.execAll A t q (xs ++ [x]) c =
      ((Call.execAll A t q xs c).1 ++ [(x.exec A t q (Call.execAll A t q xs c).2).1],
        (x.exec A t q (Call.execAll A t q xs c).2).2) := by
  induction xs generalizing c with
  | nil => rfl
  | cons y xs ih =>
    simp only [List.cons_append, Call.execAll, ih]

namespace Callers

variable {r r' : Callers KP} {a : CallAction}

structure InOrder (A : Aio KP) (t : MsgEnum) (q : String) (c : MQTTClient KP) (r : Callers KP) :
    Prop where
  outcomes : (Call.execAll A t q (r.log.map Prod.fst) c).1.map Outcome.core =
    r.log.map (Outcome.core ∘ Prod.snd)
  follows : Follows t q (Call.execAll A t q (r.log.map Prod.fst) c).2 r.client
  queue : (r.client.queue t q).isSome =
    ((Call.execAll A t q (r.log.map Prod.fst) c).2.queue t q).isSome ∨ r.signing ≠ []
  signing : ∀ x ∈ r.signing, x.Holds A t q

theorem InOrder.concat (hA : A.Lawful) (h : InOrder A t q c r) {x : Call} {o : Outcome}
    {d : MQTTClient KP} {l : List Signing} (hl : ∀ y ∈ l, y.Holds A t q)
    (ho : (x.exec A t q r.client).1.core = o.core)
    (hf : Follows t q (x.exec A t q r.client).2 d)
    (hq : (d.queue t q).isSome = ((x.exec A t q r.client).2.queue t q).isSome)
    (hs : r.signing ≠ [] → l ≠ [] ∨ ∀ e, ((x.exec A t q e).2.queue t q).isSome = true) :
    InOrder A t q c ⟨d, l, r.log ++ [(x, o)]⟩ := by
  obtain ⟨ho', hf', hq'⟩ := h.follows.exec hA x
  refine ⟨?_, ?_, ?_, hl⟩
  · simp only [List.map_append, List.map_cons, List.map_nil, execAll_concat]
    rw [h.outcomes, ho', ho]
    rfl
  · simp only [List.map_append, List.map_cons, List.map_nil, execAll_concat]
    exact hf'.trans hf
  · simp only [List.map_append, List.map_cons, List.map_nil, execAll_concat]
    rw [hq]
    rcases h.queue with hqueue | hne
    · exact .inl (hq' hqueue)
    · rcases hs hne with hne | hs
      · exact .inr hne
      · exact .inl ((hs _).trans (hs _).symm)

theorem isSome_exec_send (hA : A.Lawful) (hl : checkLengths dest q = .ok ()) (rnd : ℕ)
    (now now' : ℚ) (msg : PyMsg) (seqNo : Option ℤ) (c : MQTTClient KP) :
    (((Call.send rnd now now' msg dest seqNo).exec A t q c).2.queue t q).isSome := by
  rw [Call.exec]
  obtain ⟨err, he, -⟩ | ⟨-, d, hd, hx⟩ :=
    orderedAckSendAt_cases (t := t) (q := q) hA rnd now now' msg dest seqNo c
  · rw [he] at hl
    cases hl
  · have hq : (d.queue t q).isSome := by
      rw [hd.queue]
      exact Follows.isSome_ensureQueue c t q
    obtain ⟨err, -, hx⟩ | ⟨signed, -, hx⟩ := hx
    · rw [hx]
      exact hq
    · rw [hx]
      exact ((Follows.of_sameBook (t := t) (q := q) (SameBook.refl d)).orderedAckSendEnd hq
        _ _ _ _ _).2.2

theorem InOrder.step (hA : A.Lawful) (h : InOrder A t q c r) (ha : Undisturbed t q r a)
    (hstep : step A t q r a = some r') : InOrder A t q c r' := by
  have hlast : ∀ now, SameBook r.client { r.client with lastSend := some now } :=
    fun now => sameBook_lastSend r.client _
  cases a with
  | queueMsgAsync now msg dest =>
    simp only [Callers.step] at hstep
    split at hstep
    · rename_i s signed d hd
      cases hstep
      obtain ⟨hl, hp, hs⟩ := queueMsgAsyncBegin_eq_ok hd
      have hens := (Follows.of_sameBook (t := t) (q := q) (hlast now)).ensureQueue_right
      refine ⟨h.outcomes, (h.follows.trans hens).trans (.of_sameBook hs), .inr (by simp), ?_⟩
      intro x hx
      rcases List.mem_append.mp hx with hx | hx
      · exact h.signing x hx
      · rw [List.mem_singleton.mp hx]
        exact ⟨hl, hp⟩
    · rename_i err d hd
      cases hstep
      have hx := orderedAckSendAt_of_begin_error hA 0 now hd
      obtain ⟨ho, hf, hq⟩ := (Follows.of_sameBook (t := t) (q := q) (hlast now)).exec hA
        (.send 0 now now msg dest none)
      simp only [Call.exec, hx] at ho hf hq
      exact h.concat hA h.signing ho hf (hq rfl) .inl
  | signed k rnd now =>
    simp only [Callers.step] at hstep
    split at hstep
    · cases hstep
    · rename_i x hx
      cases hstep
      obtain ⟨hqueue, hn⟩ := ha k rnd now x rfl hx
      have hholds := h.signing x (List.mem_of_getElem? hx)
      obtain ⟨ho, hf, hq⟩ := Signing.exec hA hholds hqueue hn rnd now
      have hsome : ∀ e, (((x.call rnd now).exec A t q e).2.queue t q).isSome = true :=
        fun e => isSome_exec_send hA hholds.1 rnd x.now now x.msg none e
      exact h.concat hA (fun y hy => h.signing y (List.mem_of_mem_eraseIdx hy)) ho hf
        ((hf.queue t q hq).trans hq.symm) fun _ => .inr hsome
  | queueMsg rnd now msg dest seqNo =>
    cases hstep
    obtain ⟨ho, hf, hq⟩ := (Follows.of_sameBook (t := t) (q := q) (hlast now)).exec hA
      (.send rnd now now msg dest seqNo)
    exact h.concat hA h.signing ho hf (hq rfl) .inl
  | dequeueMsg =>
    cases hstep
    exact h.concat (x := .dequeue) hA h.signing rfl (.of_sameBook (.refl _)) rfl .inl

structure Registers (t : MsgEnum) (msg : PyMsg) (dest : String) (c : MQTTClient KP) (o : Outcome)
    (d : MQTTClient KP) : Prop where
  queued : c.queued <+: d.queued
  nextObj : c.nextObj ≤ d.nextObj
  sent : ∀ {key appAck}, o = .sent key appAck → c.nextObj ≤ appAck ∧ appAck < d.nextObj ∧
    ∃ out, ⟨t, key.1, key.2, dest, msg, out, appAck⟩ ∈ d.queued

theorem Registers.raised (hs : c.queued <+: d.queued) (hn : c.nextObj ≤ d.nextObj) (err : PyExc) :
    Registers t msg dest c (.raised err) d :=
  ⟨hs, hn, fun h => by cases h⟩

theorem Registers.after (h : Registers t msg dest c o d) (hs : c'.queued <+: c.queued)
    (hn : c'.nextObj ≤ c.nextObj) : Registers t msg dest c' o d := by
  refine ⟨hs.trans h.queued, hn.trans h.nextObj, ?_⟩
  intro key appAck ho
  obtain ⟨h₁, h₂, h₃⟩ := h.sent ho
  exact ⟨hn.trans h₁, h₂, h₃⟩

theorem registers_orderedAckSendEnd (hn : c.entry t q s = none) (now : ℚ) (msg : PyMsg)
    (dest : String) (out : Bytes) :
    Registers t msg dest c (Outcome.of (orderedAckSendEnd now msg dest q t s out c)).1
      (Outcome.of (orderedAckSendEnd now msg dest q t s out c)).2 := by
  obtain ⟨-, hx⟩ | ⟨m, hm, -⟩ | ⟨d, hd, -, hx⟩ := orderedAckSendEnd_spec now msg dest q t s out c
  · rw [hx]
    exact .raised List.prefix_rfl le_rfl _
  · rw [hn] at hm
    cases hm
  · rw [hx]
    refine ⟨List.prefix_append _ _, Nat.le_succ _, ?_⟩
    intro key appAck ho
    cases ho
    exact ⟨le_rfl, Nat.lt_succ_self _, out, List.mem_append_right _ (List.mem_singleton_self _)⟩

theorem entry_nextSeqNo (c : MQTTClient KP) (t : MsgEnum) (q : String) :
    c.entry t q (c.nextSeqNo t q) = none := by
  obtain ⟨hn, -⟩ | ⟨n, -, hle, hz⟩ := nextSeqNo_cases c t q
  · exact hn _
  · rw [← Option.not_isSome_iff_eq_none]
    intro hs
    have := hle _ hs
    omega

theorem ensureQueue_grows (h : SameBook (c.ensureQueue t q) d) :
    c.queued <+: d.queued ∧ c.nextObj ≤ d.nextObj := by
  rw [h.queued]
  refine ⟨?_, le_trans ?_ h.nextObj_le⟩ <;> unfold MQTTClient.ensureQueue <;> split_ifs
  · exact List.prefix_rfl
  · exact List.prefix_rfl
  · exact le_rfl
  · exact Nat.le_succ _

theorem registers_exec (hA : A.Lawful) (rnd : ℕ) (now now' : ℚ) (msg : PyMsg) (dest : String)
    (c : MQTTClient KP) :
    Registers t msg dest c ((Call.send rnd now now' msg dest none).exec A t q c).1
      ((Call.send rnd now now' msg dest none).exec A t q c).2 := by
  rw [Call.exec]
  obtain ⟨err, -, hx⟩ | ⟨-, d, hd, ⟨err, -, hx⟩ | ⟨signed, -, hx⟩⟩ :=
    orderedAckSendAt_cases (t := t) (q := q) hA rnd now now' msg dest none c
  · rw [hx]
    exact .raised List.prefix_rfl le_rfl _
  · rw [hx]
    obtain ⟨h₁, h₂⟩ := ensureQueue_grows hd
    exact .raised h₁ h₂ _
  · rw [hx]
    obtain ⟨h₁, h₂⟩ := ensureQueue_grows hd
    refine (registers_orderedAckSendEnd ?_ _ _ _ _).after h₁ h₂
    rw [hd.entry, entry_ensureQueue]
    exact entry_nextSeqNo c t q

/-- Each default-numbered call that returned a future has its message in the history, and no two
of them share it. -/
structure Accounted (t : MsgEnum) (r : Callers KP) : Prop where
  registered : ∀ {rnd now now' msg dest key appAck},
    (Call.send rnd now now' msg dest none, Outcome.sent key appAck) ∈ r.log →
      ∃ out, ⟨t, key.1, key.2, dest, msg, out, appAck⟩ ∈ r.client.queued
  futures : (r.log.filterMap defaultFuture).Nodup
  lt : ∀ appAck ∈ r.log.filterMap defaultFuture, appAck < r.client.nextObj

theorem Accounted.grows (h : Accounted t r) {l : List Signing} (hs : r.client.queued <+: d.queued)
    (hn : r.client.nextObj ≤ d.nextObj) : Accounted t ⟨d, l, r.log⟩ := by
  refine ⟨?_, h.futures, fun f hf => (h.lt f hf).trans_le hn⟩
  intro rnd now now' msg dest key appAck hx
  obtain ⟨out, hout⟩ := h.registered hx
  exact ⟨out, hs.subset hout⟩

theorem Accounted.concat (h : Accounted t r) {x : Call} {o : Outcome} {l : List Signing}
    (hs : r.client.queued <+: d.queued) (hn : r.client.nextObj ≤ d.nextObj)
    (hx : ∀ {rnd now now' msg dest}, x = .send rnd now now' msg dest none →
      Registers t msg dest r.client o d) : Accounted t ⟨d, l, r.log ++ [(x, o)]⟩ := by
  have hg := h.grows (l := l) hs hn
  have hnew : ∀ {appAck}, defaultFuture (x, o) = some appAck →
      r.client.nextObj ≤ appAck ∧ appAck < d.nextObj := by
    intro appAck hf
    unfold defaultFuture at hf
    split at hf
    · rename_i he
      cases he
      cases hf
      obtain ⟨h₁, h₂, -⟩ := (hx rfl).sent rfl
      exact ⟨h₁, h₂⟩
    · cases hf
  refine ⟨?_, ?_, ?_⟩
  · intro rnd now now' msg dest key appAck hmem
    rcases List.mem_append.mp hmem with hmem | hmem
    · exact hg.registered hmem
    · cases List.mem_singleton.mp hmem
      exact ((hx rfl).sent rfl).2.2
  · rw [List.filterMap_append, List.nodup_append]
    refine ⟨h.futures, ?_, ?_⟩
    · simp only [List.filterMap_cons, List.filterMap_nil]
      split <;> simp
    · rintro f hf f' hf' rfl
      simp only [List.mem_filterMap, List.mem_singleton, exists_eq_left] at hf'
      exact absurd (h.lt f hf) (hnew hf').1.not_gt
  · intro f hf
    rw [List.filterMap_append] at hf
    rcases List.mem_append.mp hf with hf | hf
    · exact hg.lt f hf
    · simp only [List.mem_filterMap, List.mem_singleton, exists_eq_left] at hf
      exact (hnew hf).2

theorem Accounted.step (hA : A.Lawful) (h : Accounted t r) (ha : Undisturbed t q r a)
    (hstep : step A t q r a = some r') : Accounted t r' := by
  cases a with
  | queueMsgAsync now msg dest =>
    simp only [Callers.step] at hstep
    split at hstep
    · rename_i s signed d hd
      cases hstep
      obtain ⟨-, -, hs⟩ := queueMsgAsyncBegin_eq_ok hd
      obtain ⟨hq, hn⟩ := ensureQueue_grows hs
      exact h.grows hq hn
    · rename_i err d hd
      cases hstep
      have hreg := registers_exec (t := t) (q := q) hA 0 now now msg dest
        { r.client with lastSend := some now }
      rw [Call.exec, orderedAckSendAt_of_begin_error hA _ _ hd] at hreg
      refine h.concat hreg.queued hreg.nextObj ?_
      rintro rnd now now' msg dest ⟨⟩
      exact hreg.after List.prefix_rfl le_rfl
  | signed k rnd now =>
    simp only [Callers.step] at hstep
    split at hstep
    · cases hstep
    · rename_i x hx
      cases hstep
      obtain ⟨-, hn⟩ := ha k rnd now x rfl hx
      have hreg : Registers t x.msg x.dest r.client
          (Outcome.of (queueMsgAsyncEnd A rnd now x.msg x.dest q t x.seqNo x.signed r.client)).1
          (Outcome.of (queueMsgAsyncEnd A rnd now x.msg x.dest q t x.seqNo x.signed r.client)).2 := by
        rw [← hn]
        exact registers_orderedAckSendEnd (entry_nextSeqNo r.client t q) ..
      refine h.concat hreg.queued hreg.nextObj ?_
      rintro rnd now now' msg dest ⟨⟩
      exact hreg
  | queueMsg rnd now msg dest seqNo =>
    cases hstep
    have hw : Writes A (fun _ => True) r.client
        (final (MQTTClient.queueMsg A rnd now msg dest q t seqNo r.client)) :=
      writes_queueMsg hA fun _ _ _ => trivial
    have hfinal : final (MQTTClient.queueMsg A rnd now msg dest q t seqNo r.client) =
        (Outcome.of (MQTTClient.queueMsg A rnd now msg dest q t seqNo r.client)).2 := by
      cases MQTTClient.queueMsg A rnd now msg dest q t seqNo r.client <;> rfl
    rw [hfinal] at hw
    refine h.concat hw.grows.queued hw.grows.nextObj_le ?_
    rintro rnd' now₁ now₂ msg' dest' ⟨⟩
    exact (registers_exec (t := t) (q := q) hA rnd now now msg dest
      { r.client with lastSend := some now }).after List.prefix_rfl le_rfl
  | dequeueMsg =>
    cases hstep
    have hw : Writes A (fun _ => True) r.client (r.client.dequeueMsg q none t) :=
      writes_dequeueMsg (fun _ => trivial) fun _ _ _ _ => trivial
    exact h.concat hw.grows.queued hw.grows.nextObj_le fun hx => by cases hx

/-- Concurrent calls on a queue amount to calls made one at a time, if no suspended one finds its
queue gone or its number no longer the next. -/
theorem async_linearizable (hA : A.Lawful) (c : MQTTClient KP) {as : List CallAction}
    (hmeets : Machine.Meets (step A t q) (Undisturbed t q) ⟨c, [], []⟩ as)
    (hrun : Machine.run (step A t q) ⟨c, [], []⟩ as = some r) (hend : r.signing = []) :
    Linearizable A t q c r := by
  have h₀ : InOrder A t q c ⟨c, [], []⟩ ∧ Accounted t ⟨c, [], []⟩ := by
    refine ⟨⟨rfl, .of_sameBook (.refl c), .inl rfl, by simp⟩, ⟨by simp, ?_, by simp⟩⟩
    exact List.nodup_nil
  obtain ⟨hord, hacc⟩ := Machine.run_invariant
    (I := fun r => InOrder A t q c r ∧ Accounted t r)
    (fun _ _ _ h hc hs => ⟨h.1.step hA hc hs, h.2.step hA hc hs⟩) h₀ hmeets hrun
  refine ⟨⟨r.log, .refl _, hord.outcomes, ?_, hord.follows.entry⟩, hacc.registered, hacc.futures⟩
  intro t' q'
  rcases hord.queue with hq | hne
  · rw [Bool.eq_iff_iff]
    constructor
    · intro hs
      rcases hord.follows.others t' q' hs with hs | ⟨rfl, rfl⟩
      · exact hs
      · rwa [← hq]
    · exact hord.follows.queue t' q'
  · exact absurd hend hne

end Callers

end Exec

namespace Callers

open Concrete

def overlapping : List CallAction :=
  [.queueMsgAsync 100 (.str "one") (concrete.pkHex 3),
    .queueMsgAsync 100 (.str "two") (concrete.pkHex 3), .signed 0 0 100, .signed 0 0 100]

def oneByOne : List CallAction :=
  [.queueMsgAsync 100 (.str "one") (concrete.pkHex 3), .signed 0 0 100,
    .queueMsgAsync 100 (.str "two") (concrete.pkHex 3), .signed 0 0 100]

instance (r : Callers KP) (a : CallAction) : Decidable (Undisturbed t q r a) :=
  match a with
  | .signed k rnd now =>
    decidable_of_iff (∀ x ∈ r.signing[k]?, (r.client.queue t q).isSome ∧
        r.client.nextSeqNo t q = x.seqNo) <| by
      constructor
      · rintro h k rnd now x ⟨⟩ hx
        exact h x hx
      · intro h x hx
        exact h k rnd now x rfl hx
  | .queueMsgAsync .. | .queueMsg .. | .dequeueMsg => .isTrue fun k rnd now x h => by cases h

theorem async_linearizable_one_by_one :
    ∃ r, Machine.run (step concrete .msg (queueId 'a')) ⟨init 1 .empty, [], []⟩ oneByOne = some r ∧
      r.log.length = 2 ∧ Linearizable concrete .msg (queueId 'a') (init 1 .empty) r := by
  obtain ⟨r, hr, hm, hd⟩ := Machine.exists_runMeeting_of_any (step concrete .msg (queueId 'a'))
    (Undisturbed .msg (queueId 'a')) ⟨init 1 .empty, [], []⟩ oneByOne
    (fun r => r.signing.isEmpty && decide (r.log.length = 2)) (by decide +kernel)
  simp only [Bool.and_eq_true, List.isEmpty_iff, decide_eq_true_eq] at hd
  exact ⟨r, hr, hd.2, async_linearizable concrete_lawful (init 1 .empty) hm hr hd.1⟩

theorem not_linearizable_overlapping :
    ∃ r, Machine.run (step concrete .msg (queueId 'a')) ⟨init 1 .empty, [], []⟩ overlapping =
        some r ∧ r.signing = [] ∧ ¬ Linearizable concrete .msg (queueId 'a') (init 1 .empty) r := by
  obtain ⟨r, hr, hd⟩ := Machine.exists_run_of_any (step concrete .msg (queueId 'a'))
    ⟨init 1 .empty, [], []⟩ overlapping
    (fun r => r.signing.isEmpty && decide (¬ (r.log.filterMap defaultFuture).Nodup))
    (by decide +kernel)
  simp only [Bool.and_eq_true, List.isEmpty_iff, decide_eq_true_eq] at hd
  exact ⟨r, hr, hd.1, fun h => hd.2 h.futures⟩

end Callers

end Sidewire
