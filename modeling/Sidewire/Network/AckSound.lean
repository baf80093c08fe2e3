import Sidewire.Mqtt.Concrete
import Sidewire.Network.Authenticity
import Sidewire.Router.Acks

/-! # Acknowledged messages were handed over

An ack names a queue id and a sequence number and is addressed to one key; what
it answers is known by content alone. It stands for the delivery of the message
that its sender waits for, as long as no other sender's message of the same
content, and no other message of the same number, comes between.
-/

namespace Sidewire

namespace Net

open MQTTClient Router

variable {P KP ι : Type} {A : Aio KP} {F : Except PyExc Bytes → Prop} {n n' : Net P KP ι} {p R : P}
  {a : Action ι} {x : P × Action ι}

def acking (A : Aio KP) (r : Router KP ι) (k : ℕ) : Option AppPacket :=
  match r.tasks[k]? with
  | some t =>
    match t.pc, AppPacket.unpack A t.payload with
    | .verifying, .ok (some pkt) => if pkt.msgType = MsgEnum.msgack.value then some pkt else none
    | _, _ => none
  | none => none

/-- A message or probe to a key, under the queue id and the sequence number of a packet. -/
def Under (A : Aio KP) (dest : Bytes) (pkt : AppPacket) (x : Queued) : Prop :=
  x.msgType ≠ .msgack ∧ A.hToB x.queueIdHex = A.hToB pkt.queueIdHex ∧ x.seqNo = pkt.seqNo ∧
    A.hToB x.destPkHex = .ok dest

/-- A router has sent at most one text to a key under the queue id and the sequence number of a
packet, and no probe besides. -/
def OneMessage (A : Aio KP) (dest : Bytes) (pkt : AppPacket) (r : Router KP ι) : Prop :=
  ∀ i, ∀ x ∈ (r.clients i).queued, Under A dest pkt x → x.msgType = .msg →
    ∀ j, ∀ y ∈ (r.clients j).queued, Under A dest pkt y →
      y.msgType = .msg ∧ A.toS (A.toB x.msg) = A.toS (A.toB y.msg)

/-- On the queue ids followed, the receiver heeds each sender's messages by themselves, and an ack
that arrives can mean one message only. -/
structure Unconfused (A : Aio KP) (F : Except PyExc Bytes → Prop) (R : P) (n : Net P KP ι)
    (x : P × Action ι) : Prop where
  heeded : x.1 = R → Heeded A F (n R) x.2
  named : ∀ k ∈ x.2.resumed, ∀ pkt ∈ acking A (n x.1) k, F (A.hToB pkt.queueIdHex) →
    OneMessage A (A.compactPublicKey (n R).kp) pkt (n x.1)

theorem Unconfused.of_quiet (hk : x.2.resumed = none) (hq : x.2.queuedAck = none) :
    Unconfused A F R n x where
  heeded _ :=
    { stamped := fun k hk' => by rw [hk] at hk'; cases hk'
      noAcks := fun q hq' => by rw [hq] at hq'; cases hq' }
  named k hk' := by rw [hk] at hk'; cases hk'

/-- The receiver has called a handler with the content of a message, as its sender's. -/
def HandedOver (A : Aio KP) (n : Net P KP ι) (R p : P) (x : Queued) : Prop :=
  ∃ v ∈ (n R).log, v.pkt.srcPkHex = A.pkHex (n p).kp ∧ A.toS (A.toB x.msg) = .ok v.pkt.msg

structure AckSound (A : Aio KP) (F : Except PyExc Bytes → Prop) (R : P) (n : Net P KP ι) : Prop where
  traced : Traced A onTopic n
  backed : AcksBacked A F (n R)
  keys : Function.Injective fun p => A.pkHex (n p).kp
  acked : ∀ p i, ∀ x ∈ ((n p).clients i).queued, x.appAck ∈ ((n p).clients i).acked →
    x.msgType = .msg → x.destPkHex = A.pkHex (n R).kp → F (A.hToB x.queueIdHex) →
    HandedOver A n R p x

theorem AckSound.of_fresh (h : ∀ p, Fresh (n p))
    (hkeys : Function.Injective fun p => A.pkHex (n p).kp)
    (hh : ∀ i, ((n R).clients i).msgHandlers.toList ≠ []) : AckSound A F R n where
  traced := .of_fresh h
  backed := (h R).acksBacked hh
  keys := hkeys
  acked p i x hx := by rw [(h p).queued] at hx; cases hx

section Decidable

instance (y : Queued) : Decidable (HandedOver A n R p y) :=
  inferInstanceAs (Decidable (∃ v ∈ (n R).log, _))

variable [Fintype P] [Fintype ι]

instance (dest : Bytes) (pkt : AppPacket) : DecidablePred (Under A dest pkt) := fun x =>
  inferInstanceAs (Decidable (x.msgType ≠ .msgack ∧ A.hToB x.queueIdHex = A.hToB pkt.queueIdHex ∧
    x.seqNo = pkt.seqNo ∧ A.hToB x.destPkHex = .ok dest))

instance (dest : Bytes) (pkt : AppPacket) (r : Router KP ι) : Decidable (OneMessage A dest pkt r) :=
  inferInstanceAs (Decidable (∀ i, ∀ x ∈ (r.clients i).queued, _))

instance [DecidableEq P] [DecidablePred F] (x : P × Action ι) : Decidable (Unconfused A F R n x) :=
  decidable_of_iff ((x.1 = R → Heeded A F (n R) x.2) ∧ ∀ k ∈ x.2.resumed, ∀ pkt ∈ acking A (n x.1) k,
      F (A.hToB pkt.queueIdHex) → OneMessage A (A.compactPublicKey (n R).kp) pkt (n x.1))
    ⟨fun h => ⟨h.1, h.2⟩, fun h => ⟨h.1, h.2⟩⟩

end Decidable

theorem AckSound.answered (hA : A.Lawful) (h : AckSound A F R n) {i : ι} {y : Queued}
    (hy : y ∈ ((n R).clients i).queued) (hty : y.msgType = .msgack) (hF : F (A.hToB y.queueIdHex))
    (hd : A.hToB y.destPkHex = .ok (A.compactPublicKey (n p).kp)) :
    ∃ pkt, Answers A (n R) y pkt ∧ pkt.srcPkHex = A.pkHex (n p).kp ∧
      ∃ j, ∃ z ∈ ((n p).clients j).queued, Carries A z pkt ∧
        A.hToB z.destPkHex = .ok (A.compactPublicKey (n R).kp) := by
  obtain ⟨pkt, hans⟩ := h.backed.acks i y hy hty hF
  obtain ⟨t, ht, hp, htop⟩ := hans.received
  have hsrc : pkt.srcPkHex = A.pkHex (n p).kp := by
    have hacc := AppPacket.unpack_spec hp
    rw [hans.destPkHex, hacc.srcPkHex, hA.hToB_toH, Except.ok.injEq] at hd
    rw [hacc.srcPkHex, hd, Aio.pkHex]
  obtain ⟨p', j, hown, z, hz, hc, w, hw, hwz⟩ :=
    h.traced.carries hA (h.traced.backed R t ht) hp ⟨p, hsrc.symm⟩
  obtain rfl : p' = p := h.keys (Eq.trans hown hsrc)
  refine ⟨pkt, hans, hsrc, j, z, hz, hc, ?_⟩
  rw [← hwz, show w.topic = t.topic from hw]
  exact htop

/-- What an ack that arrives says about the message it is taken for. -/
theorem AckSound.marked (hA : A.Lawful) (h : AckSound A F R n) {k : ℕ} {t : Task ι} {pkt : AppPacket}
    (hk : (n p).tasks[k]? = some t) (hpc : t.pc = .verifying)
    (hp : AppPacket.unpack A t.payload = .ok (some pkt)) (hm : pkt.msgType = MsgEnum.msgack.value)
    {i : ι} {x : Queued} (hx : x ∈ ((n p).clients i).queued) (hty : x.msgType = .msg)
    (hq : x.queueIdHex = pkt.queueIdHex) (hs : x.seqNo = pkt.seqNo)
    (hd : x.destPkHex = pkt.srcPkHex) (hR : x.destPkHex = A.pkHex (n R).kp)
    (hF : F (A.hToB x.queueIdHex))
    (hone : OneMessage A (A.compactPublicKey (n R).kp) pkt (n p)) : HandedOver A n R p x := by
  have ht := List.mem_of_getElem? hk
  have hadd := (h.traced.sound p).addressed t ht (by rw [hpc]; rfl)
  obtain ⟨p', j, hown, y, hy, hc, w, hw, hwy⟩ :=
    h.traced.carries hA (h.traced.backed p t ht) hp ⟨R, hR.symm.trans hd⟩
  obtain rfl : p' = R := h.keys (Eq.trans hown (hd.symm.trans hR))
  have hyt : y.msgType = .msgack := MsgEnum.value_injective (hc.msgType.trans hm)
  have hyF : F (A.hToB y.queueIdHex) := by rw [hc.queueIdHex, ← hq]; exact hF
  have hyd : A.hToB y.destPkHex = .ok (A.compactPublicKey (n p).kp) := by
    rw [← hwy, show w.topic = t.topic from hw]
    exact hadd
  obtain ⟨pkt', hans, hsrc, j', z, hz, hcz, hzd⟩ := h.answered hA hy hyt hyF hyd
  have hunderx : Under A (A.compactPublicKey (n p').kp) pkt x :=
    ⟨by rw [hty]; decide, by rw [hq], hs, by rw [hR, Aio.pkHex, hA.hToB_toH]⟩
  have hunderz : Under A (A.compactPublicKey (n p').kp) pkt z := by
    refine ⟨fun hz' => ?_, ?_, ?_, hzd⟩
    · have hv := hcz.msgType
      rw [hz'] at hv
      rcases hans.reason with ⟨hr, -⟩ | hr <;>
      · rw [hr] at hv; exact absurd hv (by decide)
    · rw [hcz.queueIdHex, ← hans.queueIdHex, hc.queueIdHex]
    · rw [hcz.seqNo, ← hans.seqNo, hc.seqNo]
  obtain ⟨hzt, htext⟩ := hone i x hx hunderx hty j' z hz hunderz
  rcases hans.reason with ⟨-, v, hv, hvm, hvs⟩ | hr
  · exact ⟨v, hv, hvs.trans hsrc, by rw [htext, hcz.msg, hvm]⟩
  · have hv := hcz.msgType
    rw [hzt, hr] at hv
    exact absurd hv (by decide)

variable [DecidableEq P] [DecidableEq ι]

omit [DecidableEq P] [DecidableEq ι] in
theorem HandedOver.mono (hadv : Advances A n n') {q : P} {y : Queued} (h : HandedOver A n R q y) :
    HandedOver A n' R q y := by
  obtain ⟨v, hv, hs, hm⟩ := h
  exact ⟨v, (hadv.log R).subset hv, by rw [hadv.kp]; exact hs, hm⟩

theorem AckSound.step (hA : A.Lawful) (h : AckSound A F R n) (hh : Honest A onTopic n (p, a))
    (hu : Unconfused A F R n (p, a)) (hstep : step A n (p, a) = some n') : AckSound A F R n' := by
  have htr := h.traced.step hA hh hstep
  have hadv := h.traced.advances hA hstep
  obtain ⟨r', hr, rfl⟩ := step_eq_some hstep
  have hM := step_spec hA hr
  have hw := hM.writes hA (h.traced.sound p)
  refine ⟨htr, ?_, fun q q' he => h.keys ?_, fun q i x hx hack hty hd hF => ?_⟩
  · by_cases hR : R = p
    · subst hR
      rw [Function.update_self]
      exact h.backed.step hA (h.traced.sound R) (hu.heeded rfl) hM
    · rw [Function.update_of_ne hR]
      exact h.backed
  · simp only [hadv.kp] at he
    exact he
  · rw [hadv.kp] at hd
    refine HandedOver.mono hadv ?_
    by_cases hq : q = p
    · subst hq
      have htrack := htr.sound q
      simp only [Function.update_self] at hx hack htrack
      obtain hold | ⟨t, q', s, m, hP, hma, msg, hmem⟩ :=
        (hw i).acked_cases ((h.traced.sound q).tracked i) hack
      · obtain ⟨x', hx', he⟩ := ((h.traced.sound q).tracked i).resolved _
          (((h.traced.sound q).tracked i).acked hold)
        obtain rfl : x' = x :=
          (htrack.tracked i).eq_of_appAck ((hw i).grows.queued.subset hx') hx he
        exact h.acked q i x' hx' hold hty hd hF
      · cases hP with
        | @marked k rnd t pkt ty m hk hi hpc hp hm hty' he hdm =>
          obtain ⟨msg', hmem'⟩ := ((h.traced.sound q).tracked i).entry he
          obtain rfl := (htrack.tracked i).eq_of_appAck ((hw i).grows.queued.subset hmem') hx hma
          refine h.marked hA hk hpc hp hm hmem' hty rfl rfl hdm hd hF (hu.named _ rfl pkt ?_ hF)
          simp only [acking, hk, hpc, hp, hm, if_true, Option.mem_def]
    · simp only [Function.update_of_ne hq] at hx hack
      exact h.acked q i x hx hack hty hd hF

/-- End-to-end ack soundness: while nothing confuses the messages on the queue ids followed, a
message on one of them that was acknowledged has been handed over. -/
theorem acked_handed_over (hA : A.Lawful) {n₀ : Net P KP ι} {as : List (P × Action ι)}
    (h₀ : ∀ p, Fresh (n₀ p)) (hkeys : Function.Injective fun p => A.pkHex (n₀ p).kp)
    (hh : ∀ i, ((n₀ R).clients i).msgHandlers.toList ≠ [])
    (hnet : Machine.Meets (step A) (Honest A onTopic) n₀ as)
    (hcond : Machine.Meets (step A) (Unconfused A F R) n₀ as)
    (hrun : Machine.run (step A) n₀ as = some n) {i : ι} {y : Queued}
    (hy : y ∈ ((n p).clients i).queued) (hack : y.appAck ∈ ((n p).clients i).acked)
    (hty : y.msgType = .msg) (hd : y.destPkHex = A.pkHex (n R).kp) (hF : F (A.hToB y.queueIdHex)) :
    HandedOver A n R p y :=
  (Machine.run_invariant (fun _ _ _ h hc hs => h.step hA hc.1 hc.2 hs)
    (AckSound.of_fresh h₀ hkeys hh) (hnet.and hcond) hrun).acked p i y hy hack hty hd hF

open Concrete

def trio : Net (Fin 3) ℕ Unit := fun p => connected (p + 1) soleHandler 100

theorem fresh_trio (p : Fin 3) : Fresh (trio p) :=
  fresh_connected _ _ (by norm_num) (by decide +kernel)

def sends (p : Fin 3) (q : Char) (k : ℕ) : List (Fin 3 × Action Unit) :=
  [(p, .queueMsg () 0 (.str "hello") (concrete.pkHex 3) (queueId q) .msg none),
    (p, .dispatch () 0), (p, .dispatch () 0), (p, .dispatch () 0), (p, .dispatch () 0),
    (2, .recv () (concrete.pkHex 3) (signedBy (p + 1) 100 (queueId q) 0 .msg "hello") false),
    (2, .resume k (.ok 0)), (2, .resume k (.ok 0))]

def acknowledges (k rest : ℕ) : List (Fin 3 × Action Unit) :=
  List.replicate rest (2, .resume k (.ok 0)) ++ List.replicate 5 (2, .dispatch () 0) ++
    [(0, .recv () (concrete.pkHex 1) (signedBy 3 100 (queueId 'a') 0 .msgack "ack") false),
      (0, .resume 0 (.ok 0))]

theorem acked_handed_over_single :
    ∃ n, Machine.run (step concrete) trio (sends 0 'a' 0 ++ acknowledges 0 2) = some n ∧
      ∃ y ∈ ((n 0).clients ()).queued, y.appAck ∈ ((n 0).clients ()).acked ∧
        HandedOver concrete n 2 0 y := by
  obtain ⟨n, hn, hm, hd⟩ := Machine.exists_runMeeting_of_any (step concrete)
    (fun n x => Honest concrete onTopic n x ∧ Unconfused concrete (fun _ => True) 2 n x) trio
    (sends 0 'a' 0 ++ acknowledges 0 2)
    (fun n => decide (∃ y ∈ ((n 0).clients ()).queued, y.appAck ∈ ((n 0).clients ()).acked ∧
      y.msgType = .msg ∧ y.destPkHex = concrete.pkHex (n 2).kp)) (by decide +kernel)
  obtain ⟨y, hy, hack, hty, hdest⟩ := of_decide_eq_true hd
  exact ⟨n, hn, y, hy, hack, acked_handed_over concrete_lawful fresh_trio
    (by decide +kernel) (by decide) (hm.mono fun _ _ => And.left) (hm.mono fun _ _ => And.right)
    hn hy hack hty hdest trivial⟩

/-- The second party sends the same text before the first one. -/
theorem acked_not_handed_over :
    ∃ n, Machine.run (step concrete) trio
        (sends 1 'b' 0 ++ sends 0 'a' 1 ++ acknowledges 1 1) = some n ∧
      Machine.Meets (step concrete) (Honest concrete onTopic) trio
        (sends 1 'b' 0 ++ sends 0 'a' 1 ++ acknowledges 1 1) ∧
      ∃ y ∈ ((n 0).clients ()).queued, y.appAck ∈ ((n 0).clients ()).acked ∧ y.msgType = .msg ∧
        y.destPkHex = concrete.pkHex (n 2).kp ∧ ¬ HandedOver concrete n 2 0 y := by
  obtain ⟨n, hn, hm, hd⟩ := Machine.exists_runMeeting_of_any (step concrete)
    (Honest concrete onTopic) trio
    (sends 1 'b' 0 ++ sends 0 'a' 1 ++ acknowledges 1 1)
    (fun n => decide (∃ y ∈ ((n 0).clients ()).queued, y.appAck ∈ ((n 0).clients ()).acked ∧
      y.msgType = .msg ∧ y.destPkHex = concrete.pkHex (n 2).kp ∧
      ¬ HandedOver concrete n 2 0 y)) (by decide +kernel)
  exact ⟨n, hn, hm, of_decide_eq_true hd⟩

end Net

end Sidewire
