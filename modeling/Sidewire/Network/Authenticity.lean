import Sidewire.Mqtt.Concrete
import Sidewire.Network.Basic

/-! # What a signature vouches for

A packet is signed by its sender and delivered by its topic. The signed section
names the queue, the sequence number, the type and the message, but not the
destination: the sender of a delivered message is authentic, and the recipient
is the intended one as far as the network keeps to topics.
-/

namespace Sidewire

namespace Net

open MQTTClient Router

variable {P KP ι : Type} {A : Aio KP} {n : Net P KP ι} {p : P} {Q : String → Publish → Prop}

/-- The owner of the source key queued the message a handler was called with, for a destination
of the given kind. -/
def QueuedFor (A : Aio KP) (n : Net P KP ι) (v : Invocation ι) (dest : String → Prop) : Prop :=
  ∃ p i, Owns A n p v.pkt.srcPkHex ∧ ∃ x ∈ ((n p).clients i).queued,
    x.msgType = .msg ∧ Carries A x v.pkt ∧ dest x.destPkHex

theorem Traced.queuedFor (hA : A.Lawful) (h : Traced A Q n) {v : Invocation ι} (hv : v ∈ (n p).log)
    (ho : ∃ p', Owns A n p' v.pkt.srcPkHex) :
    QueuedFor A n v fun dest => ∃ topic y, A.hToB topic = .ok (A.compactPublicKey (n p).kp) ∧
      Q topic y ∧ y.topic = dest := by
  obtain ⟨hm, t, ht, -, hp, htop⟩ := h.logged p v hv
  obtain ⟨p', i, hown, x, hx, hc, y, hq, hy⟩ := h.carries hA (h.backed p t ht) hp ho
  have hmsg : x.msgType = .msg := MsgEnum.value_injective (hc.msgType.trans hm)
  exact ⟨p', i, hown, x, hx, hmsg, hc, t.topic, y, htop, hq, hy⟩

variable [DecidableEq P] [DecidableEq ι]

/-- Source authenticity: a message that a handler is called with was queued under the source key,
if that key is honest. While the network keeps to topics, it was queued for this destination. -/
theorem source_authentic (hA : A.Lawful) {n₀ : Net P KP ι} {as : List (P × Action ι)}
    (h₀ : ∀ p, Fresh (n₀ p)) (hrun : Machine.run (step A) n₀ as = some n) {v : Invocation ι}
    (hv : v ∈ (n p).log) (ho : ∃ p', Owns A n p' v.pkt.srcPkHex) :
    (Machine.Meets (step A) (Honest A anywhere) n₀ as → QueuedFor A n v fun _ => True) ∧
      (Machine.Meets (step A) (Honest A onTopic) n₀ as →
        QueuedFor A n v fun dest => A.hToB dest = .ok (A.compactPublicKey (n p).kp)) := by
  have htraced : ∀ {Q}, Machine.Meets (step A) (Honest A Q) n₀ as → Traced A Q n := fun hm =>
    Machine.run_invariant (fun _ _ _ h hh hs => h.step hA hh hs) (.of_fresh h₀) hm hrun
  constructor
  · intro hm
    obtain ⟨p', i, hown, x, hx, hmsg, hc, -⟩ := (htraced hm).queuedFor hA hv ho
    exact ⟨p', i, hown, x, hx, hmsg, hc, trivial⟩
  · intro hm
    obtain ⟨p', i, hown, x, hx, hmsg, hc, topic, y, htop, hq, hy⟩ := (htraced hm).queuedFor hA hv ho
    refine ⟨p', i, hown, x, hx, hmsg, hc, ?_⟩
    rw [← hy, show y.topic = topic from hq]
    exact htop

open Concrete

def soleHandler : HandlerSet := ⟨[5], by decide⟩

def pair : Net Bool ℕ Unit := fun p => connected (if p then 1 else 2) soleHandler 100

theorem fresh_pair (p : Bool) : Fresh (pair p) :=
  fresh_connected _ _ (by norm_num) (by decide +kernel)

def handedToSecond (dest : ℕ) : List (Bool × Action Unit) :=
  [(true, .queueMsg () 0 (.str "hello") (concrete.pkHex dest) (queueId 'a') .msg none),
    (true, .dispatch () 0), (true, .dispatch () 0), (true, .dispatch () 0), (true, .dispatch () 0),
    (false, .recv () (concrete.pkHex 2) (signedBy 1 100 (queueId 'a') 0 .msg "hello") false),
    (false, .resume 0 (.ok 0)), (false, .resume 0 (.ok 0))]

theorem source_authentic_second : ∃ n, Machine.run (step concrete) pair (handedToSecond 2) = some n ∧
    ∃ v ∈ (n false).log,
      QueuedFor concrete n v fun dest => concrete.hToB dest = .ok (concrete.compactPublicKey 2) := by
  obtain ⟨n, hn, hm, hd⟩ := Machine.exists_runMeeting_of_any (step concrete)
    (Honest concrete onTopic) pair (handedToSecond 2)
    (fun n => decide ((∃ v ∈ (n false).log, concrete.pkHex (n true).kp = v.pkt.srcPkHex) ∧
      (n false).kp = 2)) (by decide +kernel)
  obtain ⟨⟨v, hv, ho⟩, hk⟩ := of_decide_eq_true hd
  have h := (source_authentic concrete_lawful fresh_pair hn hv ⟨true, ho⟩).2 hm
  rw [hk] at h
  exact ⟨n, hn, v, hv, h⟩

/-- A message for a third key is delivered by the second party, which may see it and hand it to
itself. -/
theorem not_destination_authentic :
    ∃ n, Machine.run (step concrete) pair (handedToSecond 3) = some n ∧
      Machine.Meets (step concrete) (Honest concrete anywhere) pair (handedToSecond 3) ∧
      ∃ v ∈ (n false).log, Owns concrete n true v.pkt.srcPkHex ∧
        ∀ i, ∀ x ∈ ((n true).clients i).queued,
          concrete.hToB x.destPkHex ≠ .ok (concrete.compactPublicKey (n false).kp) := by
  obtain ⟨n, hn, hm, hd⟩ := Machine.exists_runMeeting_of_any (step concrete)
    (Honest concrete anywhere) pair (handedToSecond 3)
    (fun n => decide (∃ v ∈ (n false).log, concrete.pkHex (n true).kp = v.pkt.srcPkHex ∧
      ∀ i, ∀ x ∈ ((n true).clients i).queued,
        concrete.hToB x.destPkHex ≠ .ok (concrete.compactPublicKey (n false).kp)))
    (by decide +kernel)
  obtain ⟨v, hv, ho, hx⟩ := of_decide_eq_true hd
  exact ⟨n, hn, hm, v, hv, ho, hx⟩

end Net

end Sidewire
