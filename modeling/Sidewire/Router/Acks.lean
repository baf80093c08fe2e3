import Sidewire.Router.Steps

/-! # What an acknowledgement stands for

A router acknowledges a message for one of three reasons: its handlers were
called with it, its content hash was stamped before, or a probe came under the
same queue id and sequence number. Only the middle one may lack a delivery.
-/

namespace Sidewire

def TaskPc.answering : TaskPc → Option AppPacket
  | .handling pkt _ _ | .signing pkt _ _ => some pkt
  | _ => none

def Action.queuedAck {ι : Type} : Action ι → Option String
  | .queueMsg _ _ _ _ q .msgack _ => some q
  | _ => none

namespace Router

open MQTTClient

variable {KP ι : Type} {A : Aio KP} {F : Except PyExc Bytes → Prop} {r r' : Router KP ι}
  {a : Action ι} {pkt : AppPacket} {t : Task ι} {k : ℕ} {res : Except PyExc ℕ} {pc : TaskPc}
  {c : MQTTClient KP} {recv : PyDict String ℚ} {calls : List (ℕ × AppPacket)}

def Heard (r : Router KP ι) (pkt : AppPacket) : Prop :=
  ∃ v ∈ r.log, v.pkt.msg = pkt.msg ∧ v.pkt.srcPkHex = pkt.srcPkHex

structure Answers (A : Aio KP) (r : Router KP ι) (x : Queued) (pkt : AppPacket) : Prop where
  received : ∃ t ∈ r.tasks, AppPacket.unpack A t.payload = .ok (some pkt) ∧
    A.hToB t.topic = .ok (A.compactPublicKey r.kp)
  queueIdHex : x.queueIdHex = pkt.queueIdHex
  seqNo : x.seqNo = pkt.seqNo
  destPkHex : x.destPkHex = pkt.srcPkHex
  reason : pkt.msgType = MsgEnum.msg.value ∧ Heard r pkt ∨ pkt.msgType = MsgEnum.probe.value

structure AcksBacked (A : Aio KP) (F : Except PyExc Bytes → Prop) (r : Router KP ι) : Prop where
  handlers : ∀ i, (r.clients i).msgHandlers.toList ≠ []
  answering : ∀ t ∈ r.tasks, ∀ pkt ∈ t.pc.answering, F (A.hToB pkt.queueIdHex) → Heard r pkt
  acks : ∀ i, ∀ x ∈ (r.clients i).queued, x.msgType = .msgack → F (A.hToB x.queueIdHex) →
    ∃ pkt, Answers A r x pkt

/-- On the queue ids followed, a message whose hash is stamped was heard from its sender, and the
application makes no acks of its own. -/
structure Heeded (A : Aio KP) (F : Except PyExc Bytes → Prop) (r : Router KP ι) (a : Action ι) :
    Prop where
  stamped : ∀ k ∈ a.resumed, ∀ pkt ∈ r.checking k, F (A.hToB pkt.queueIdHex) →
    r.recvMsgIds.contains (A.msgHash pkt.msg) = true → Heard r pkt
  noAcks : ∀ q ∈ a.queuedAck, ¬ F (A.hToB q)

instance : Decidable (Heard r pkt) := inferInstanceAs (Decidable (∃ v ∈ r.log, _))

instance [DecidablePred F] : Decidable (Heeded A F r a) :=
  decidable_of_iff ((∀ k ∈ a.resumed, ∀ pkt ∈ r.checking k, F (A.hToB pkt.queueIdHex) →
      r.recvMsgIds.contains (A.msgHash pkt.msg) = true → Heard r pkt) ∧
    ∀ q ∈ a.queuedAck, ¬ F (A.hToB q)) ⟨fun h => ⟨h.1, h.2⟩, fun h => ⟨h.1, h.2⟩⟩

theorem Fresh.acksBacked (h : Fresh r) (hh : ∀ i, (r.clients i).msgHandlers.toList ≠ []) :
    AcksBacked A F r where
  handlers := hh
  answering t ht := by rw [h.tasks] at ht; cases ht
  acks i x hx := by rw [h.queued] at hx; cases hx

theorem AckStarts.answering {now : ℚ} {c c' : MQTTClient KP} (h : AckStarts A now pkt c pc c') :
    ∀ pkt' ∈ pc.answering, pkt' = pkt := by
  cases h with
  | signing => intro pkt' h; exact (Option.some.inj h).symm
  | failed hw hpc he => rcases hpc with rfl | rfl <;> exact nofun

variable [DecidableEq ι]

theorem Move.heard (h : Move A r a r') (hh : Heard r pkt) : Heard r' pkt := by
  obtain ⟨v, hv, hv'⟩ := hh
  exact ⟨v, h.log.subset hv, hv'⟩

theorem Move.answers (h : Move A r a r') {x : Queued} (hx : Answers A r x pkt) :
    Answers A r' x pkt := by
  obtain ⟨⟨t, ht, hp, htop⟩, h₁, h₂, h₃, h₄⟩ := hx
  obtain ⟨t', ht', -, htop', hp'⟩ := h.tasks_kept ht
  exact ⟨⟨t', ht', by rw [hp']; exact hp, by rw [htop', h.kp]; exact htop⟩, h₁, h₂, h₃,
    h₄.imp (And.imp_right h.heard) id⟩

theorem AcksBacked.turn (h : AcksBacked A F r) (hk : r.tasks[k]? = some t)
    (ha : Heeded A F r (.resume k res)) (hT : Turn A r t res pc c recv calls)
    (hpkt : pkt ∈ pc.answering)
    (hF : F (A.hToB pkt.queueIdHex)) : Heard (r.afterTurn k t pc c recv calls) pkt := by
  have hlog : ∀ {v}, v ∈ r.log → v ∈ (r.afterTurn k t pc c recv calls).log :=
    fun hv => List.mem_append_left _ hv
  have hold : Heard r pkt → Heard (r.afterTurn k t pc c recv calls) pkt :=
    fun ⟨v, hv, hv'⟩ => ⟨v, hlog hv, hv'⟩
  have hans : ∀ pkt', t.pc.answering = some pkt' → pkt' = pkt →
      Heard (r.afterTurn k t pc c recv calls) pkt := by
    rintro pkt' h' rfl
    exact hold (h.answering t (List.mem_of_getElem? hk) pkt' h' hF)
  cases hT with
  | topic =>
    obtain ⟨e, he⟩ | he := checkTopic_pc (A := A) r t.client t.topic <;>
    · rw [he] at hpkt; cases hpkt
  | again h hp hm ho he hpc => obtain rfl | ⟨e, rfl⟩ := hpc <;> cases hpkt
  | probe h hp hm hpc => obtain rfl | ⟨e, rfl⟩ := hpc <;> cases hpkt
  | signed h hpc => obtain rfl | ⟨e, rfl⟩ := hpc <;> cases hpkt
  | seen hpc hs hack =>
    obtain rfl := hack.answering _ hpkt
    refine hold (ha.stamped k rfl pkt ?_ hF hs)
    simp only [checking, hk, hpc, Option.mem_def]
  | @first _ pkt' hpc hn x todo hl =>
    obtain rfl : pkt' = pkt := Option.some.inj hpkt
    exact ⟨_, List.mem_append_right _ (List.mem_singleton_self _), rfl, rfl⟩
  | unheard hpc hn hl => exact absurd hl (h.handlers _)
  | next hpc hl => exact hans _ (by rw [hpc]; rfl) (Option.some.inj hpkt)
  | last hpc hack => exact hans _ (by rw [hpc]; rfl) (hack.answering _ hpkt).symm
  | drop | fresh | ack | changed | sent => cases hpkt
  | failed h => obtain ⟨-, rfl⟩ | ⟨-, -, rfl⟩ := failed_cases h <;> cases hpkt

theorem AcksBacked.step (hA : A.Lawful) (hs : Sound A r) (h : AcksBacked A F r)
    (ha : Heeded A F r a) (hM : Move A r a r') : AcksBacked A F r' := by
  refine ⟨fun i hn => h.handlers i ?_, fun t ht pkt hpkt hF => ?_, fun i x hx hty hF => ?_⟩
  · have hp := (hM.writes hA hs i).handlers_kept
    rw [hn] at hp
    exact List.prefix_nil.mp hp
  · cases hM with
    | tick | client | prune => exact h.answering t ht pkt hpkt hF
    | @recv i topic payload withId pc hpc =>
      rcases List.mem_append.mp ht with ht | ht
      · exact h.answering t ht pkt hpkt hF
      · rw [List.mem_singleton.mp ht] at hpkt
        obtain rfl | ⟨e, rfl⟩ | rfl := hpc
        · cases hpkt
        · cases hpkt
        · change pkt ∈ (r.checkTopic A i topic).answering at hpkt
          obtain ⟨e, he⟩ | he := checkTopic_pc (A := A) r i topic <;>
          · rw [he] at hpkt; cases hpkt
    | turn hk hT =>
      obtain ht | rfl := mem_tasks_afterTurn hk ht
      · obtain ⟨v, hv, hv'⟩ := h.answering t ht pkt hpkt hF
        exact ⟨v, List.mem_append_left _ hv, hv'⟩
      · exact h.turn hk ha hT hpkt hF
  · obtain hx | hx := (hM.writes hA hs i).queued_cases hx
    · obtain ⟨pkt, hpkt⟩ := h.acks i x hx hty hF
      exact ⟨pkt, hM.answers hpkt⟩
    · cases hx with
      | queued =>
        simp only at hty
        subst hty
        exact absurd hF (ha.noAcks _ rfl)
      | probed => cases hty
      | @acked k rnd t pkt signed out ack hk hi hpc hn =>
        have ht := List.mem_of_getElem? hk
        have hh := hs.holds t ht
        have hadd := hs.addressed t ht
        have hans := h.answering t ht
        rw [hpc] at hh hadd hans
        exact ⟨pkt, hM.answers ⟨⟨t, ht, hh.1.1, hadd rfl⟩, rfl, rfl, rfl,
          .inl ⟨hh.1.2, hans pkt rfl hF⟩⟩⟩
      | @probeAcked k rnd t pkt out ack hk hi hpc hp hm hn =>
        have ht := List.mem_of_getElem? hk
        have hadd := hs.addressed t ht
        rw [hpc] at hadd
        exact ⟨pkt, hM.answers ⟨⟨t, ht, hp, hadd rfl⟩, rfl, rfl, rfl, .inr hm⟩⟩

end Router

end Sidewire
