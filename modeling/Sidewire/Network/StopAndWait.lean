import Sidewire.Mqtt.Stream
import Sidewire.Network.AckSound
import Sidewire.Network.Authenticity

/-! # Stop and wait

One client sends a stream of messages under one queue id and queues the next
only when the last one was acknowledged. Copies and acks of any age may still be
under way; an ack stands for a delivery, so only the newest message can be one
that the receiver has not seen.
-/

namespace Sidewire

namespace Net

open MQTTClient Router

variable {P KP ι : Type} {A : Aio KP} {n n' : Net P KP ι} {p S R : P} {i : ι} {q : String} {h : ℕ}
  {a : Action ι} {x y : Queued} {pkt : AppPacket}

structure Sending (ι : Type) where
  client : ι
  msg : PyMsg
  dest : String
  queueIdHex : String
  msgType : MsgEnum
  seqNo : Option ℤ

def sending : Action ι → Option (Sending ι)
  | .queueMsg i _ msg dest q t s => some ⟨i, msg, dest, q, t, s⟩
  | _ => none

def probing : Action ι → Option String
  | .sendProbe _ _ _ q => some q
  | _ => none

def dequeuing : Action ι → Option (ι × String × MsgEnum)
  | .dequeueMsg i q _ t => some (i, q, t)
  | _ => none

def addsHandler : Action ι → Bool
  | .addMsgHandler _ _ => true
  | _ => false

/-- The receiver reads two messages as texts with one content hash. -/
def Collide (A : Aio KP) (m m' : PyMsg) : Prop :=
  ∃ t u, A.toS (A.toB m) = .ok t ∧ A.toS (A.toB m') = .ok u ∧ A.msgHash t = A.msgHash u

/-- The texts that handlers were called with under a queue id, in order. -/
def heard (A : Aio KP) (q : String) (r : Router KP ι) : List String :=
  (r.log.filter fun v => A.hToB v.pkt.queueIdHex = A.hToB q).map fun v => v.pkt.msg

/-- The sender queues one message after the other on its queue id and waits for each; nobody else
uses the queue id or the contents, nothing of it is dequeued, and the receiver keeps its handler and
the ids it has stamped. -/
structure OneByOne [DecidableEq ι] (A : Aio KP) (S R : P) (i : ι) (q : String) (n : Net P KP ι)
    (x : P × Action ι) : Prop where
  relayed : Relayed n x
  own : ∀ z ∈ sending x.2, A.hToB z.queueIdHex = A.hToB q →
    x.1 = S ∧ z.client = i ∧ z.queueIdHex = q ∧ z.msgType = .msg ∧ z.seqNo = none ∧
      z.dest = A.pkHex (n R).kp ∧
      ∀ y ∈ (((n S).clients i).stream q).getLast?, y.appAck ∈ ((n S).clients i).resolved
  contents : ∀ z ∈ sending x.2, z.msgType = .msg →
    ∀ p k, ∀ y ∈ ((n p).clients k).queued, y.msgType = .msg →
      (A.hToB z.queueIdHex = A.hToB q ∨ A.hToB y.queueIdHex = A.hToB q) → z.msg ≠ y.msg
  probes : ∀ q' ∈ probing x.2, A.hToB q' ≠ A.hToB q
  dequeued : x.1 = S → ∀ z ∈ dequeuing x.2, z ≠ (i, q, MsgEnum.msg)
  handlers : x.1 = R → addsHandler x.2 = false
  stamps : x.1 = R → ∀ r' ∈ (n R).step A x.2, ∀ id ∈ (n R).recvMsgIds.keys,
    r'.recvMsgIds.contains id = true

/-- The contents are told apart by the ids that the receiver stamps. -/
structure Waiting [DecidableEq ι] (A : Aio KP) (S R : P) (i : ι) (q : String) (n : Net P KP ι)
    (x : P × Action ι) : Prop extends OneByOne A S R i q n x where
  texts : ∀ z ∈ sending x.2, z.msgType = .msg →
    ∀ p k, ∀ y ∈ ((n p).clients k).queued, y.msgType = .msg →
      (A.hToB z.queueIdHex = A.hToB q ∨ A.hToB y.queueIdHex = A.hToB q) → ¬ Collide A z.msg y.msg

structure Streaming (A : Aio KP) (S R : P) (i : ι) (q : String) (h : ℕ) (n : Net P KP ι) : Prop where
  ackSound : AckSound A (fun b => b = A.hToB q) R n
  owned : ∀ t ∈ (n R).tasks, ∀ pkt, AppPacket.unpack A t.payload = .ok (some pkt) →
    ∃ p, Owns A n p pkt.srcPkHex
  numbered : Numbered q ((n S).clients i)
  waited : ∀ (k : ℕ) (x : Queued), (((n S).clients i).stream q)[k]? = some x →
    k + 1 < (((n S).clients i).stream q).length → x.appAck ∈ ((n S).clients i).resolved
  resolved : ∀ x ∈ ((n S).clients i).stream q, x.appAck ∈ ((n S).clients i).resolved →
    x.appAck ∈ ((n S).clients i).acked
  dest : ∀ x ∈ ((n S).clients i).stream q, x.destPkHex = A.pkHex (n R).kp
  only : ∀ p j, ∀ y ∈ ((n p).clients j).queued, A.hToB y.queueIdHex = A.hToB q →
    y.msgType = .msgack ∨ p = S ∧ j = i ∧ y ∈ ((n S).clients i).stream q
  apart : ∀ x ∈ ((n S).clients i).stream q, ∀ p j, ∀ y ∈ ((n p).clients j).queued,
    y.msgType = .msg → Collide A x.msg y.msg → p = S ∧ j = i ∧ y = x
  handlers : ∀ j, ((n R).clients j).msgHandlers.toList = [h]
  todo : ∀ t ∈ (n R).tasks, t.pc.todo = []
  stamped : ∀ id, (n R).recvMsgIds.contains id = true ↔
    ∃ v ∈ (n R).log, A.msgHash v.pkt.msg = id
  delivered : (heard A q (n R)).map Except.ok <+:
    (((n S).clients i).stream q).map fun x => A.toS (A.toB x.msg)

theorem Collide.symm {m m' : PyMsg} (hc : Collide A m m') : Collide A m' m := by
  obtain ⟨t, u, ht, hu, he⟩ := hc
  exact ⟨u, t, hu, ht, he.symm⟩

theorem mem_heard {r : Router KP ι} {text : String} : text ∈ heard A q r ↔
    ∃ v ∈ r.log, A.hToB v.pkt.queueIdHex = A.hToB q ∧ v.pkt.msg = text := by
  simp [heard, and_assoc]

section Decidable

instance {m m' : PyMsg} : Decidable (Collide A m m') :=
  match h : A.toS (A.toB m), h' : A.toS (A.toB m') with
  | .ok t, .ok u => decidable_of_iff (A.msgHash t = A.msgHash u) ⟨fun he => ⟨t, u, h, h', he⟩,
      fun ⟨t', u', ht, hu, he⟩ => by rw [h] at ht; rw [h'] at hu; cases ht; cases hu; exact he⟩
  | .error _, _ => isFalse fun ⟨_, _, ht, _⟩ => by rw [h] at ht; cases ht
  | .ok _, .error _ => isFalse fun ⟨_, _, _, hu, _⟩ => by rw [h'] at hu; cases hu

set_option synthInstance.maxSize 512 in
instance [Fintype P] [Fintype ι] [DecidableEq P] [DecidableEq ι] (x : P × Action ι) :
    Decidable (OneByOne A S R i q n x) :=
  decidable_of_iff (Relayed n x ∧
    (∀ z ∈ sending x.2, A.hToB z.queueIdHex = A.hToB q →
      x.1 = S ∧ z.client = i ∧ z.queueIdHex = q ∧ z.msgType = .msg ∧ z.seqNo = none ∧
        z.dest = A.pkHex (n R).kp ∧
        ∀ y ∈ (((n S).clients i).stream q).getLast?, y.appAck ∈ ((n S).clients i).resolved) ∧
    (∀ z ∈ sending x.2, z.msgType = .msg → ∀ p k, ∀ y ∈ ((n p).clients k).queued, y.msgType = .msg →
      (A.hToB z.queueIdHex = A.hToB q ∨ A.hToB y.queueIdHex = A.hToB q) → z.msg ≠ y.msg) ∧
    (∀ q' ∈ probing x.2, A.hToB q' ≠ A.hToB q) ∧
    (x.1 = S → ∀ z ∈ dequeuing x.2, z ≠ (i, q, MsgEnum.msg)) ∧
    (x.1 = R → addsHandler x.2 = false) ∧
    (x.1 = R → ∀ r' ∈ (n R).step A x.2, ∀ id ∈ (n R).recvMsgIds.keys,
      r'.recvMsgIds.contains id = true))
    ⟨fun ⟨h₁, h₂, h₃, h₄, h₅, h₆, h₇⟩ => ⟨h₁, h₂, h₃, h₄, h₅, h₆, h₇⟩,
      fun ⟨h₁, h₂, h₃, h₄, h₅, h₆, h₇⟩ => ⟨h₁, h₂, h₃, h₄, h₅, h₆, h₇⟩⟩

instance [Fintype P] [Fintype ι] [DecidableEq P] [DecidableEq ι] (x : P × Action ι) :
    Decidable (Waiting A S R i q n x) :=
  decidable_of_iff (OneByOne A S R i q n x ∧ ∀ z ∈ sending x.2, z.msgType = .msg →
      ∀ p k, ∀ y ∈ ((n p).clients k).queued, y.msgType = .msg →
        (A.hToB z.queueIdHex = A.hToB q ∨ A.hToB y.queueIdHex = A.hToB q) → ¬ Collide A z.msg y.msg)
    ⟨fun h => ⟨h.1, h.2⟩, fun h => ⟨h.1, h.2⟩⟩

end Decidable

namespace Streaming

variable (hs : Streaming A S R i q h n)

include hs

theorem carried (hA : A.Lawful) {t : Task ι} (ht : t ∈ (n R).tasks)
    (hp : AppPacket.unpack A t.payload = .ok (some pkt)) :
    ∃ p j, Owns A n p pkt.srcPkHex ∧ ∃ y ∈ ((n p).clients j).queued, Carries A y pkt := by
  obtain ⟨p, j, hown, y, hy, hc, -⟩ := hs.ackSound.traced.carries hA
    (hs.ackSound.traced.backed R t ht) hp (hs.owned t ht pkt hp)
  exact ⟨p, j, hown, y, hy, hc⟩

theorem of_queueId (hA : A.Lawful) {t : Task ι} (ht : t ∈ (n R).tasks)
    (hp : AppPacket.unpack A t.payload = .ok (some pkt)) (hm : pkt.msgType = MsgEnum.msg.value)
    (hq : A.hToB pkt.queueIdHex = A.hToB q) :
    Owns A n S pkt.srcPkHex ∧ ∃ x ∈ ((n S).clients i).stream q, Carries A x pkt := by
  obtain ⟨p, j, hown, y, hy, hc⟩ := hs.carried hA ht hp
  have hty : y.msgType = .msg := MsgEnum.value_injective (hc.msgType.trans hm)
  obtain hack | ⟨rfl, rfl, hy'⟩ := hs.only p j y hy (hc.queueIdHex.trans hq)
  · rw [hty] at hack; cases hack
  · exact ⟨hown, y, hy', hc⟩

theorem of_collide (hA : A.Lawful) (hx : x ∈ ((n S).clients i).stream q) {text : String}
    (htext : A.toS (A.toB x.msg) = .ok text) {v : Invocation ι} (hv : v ∈ (n R).log)
    (hh : A.msgHash v.pkt.msg = A.msgHash text) :
    v.pkt.msg = text ∧ Owns A n S v.pkt.srcPkHex ∧ A.hToB v.pkt.queueIdHex = A.hToB q := by
  obtain ⟨hm, t, ht, -, hp, -⟩ := hs.ackSound.traced.logged R v hv
  obtain ⟨p, j, hown, y, hy, hc⟩ := hs.carried hA ht hp
  have hty : y.msgType = .msg := MsgEnum.value_injective (hc.msgType.trans hm)
  obtain ⟨rfl, rfl, rfl⟩ := hs.apart x hx p j y hy hty ⟨text, v.pkt.msg, htext, hc.msg, hh.symm⟩
  rw [hc.msg, Except.ok.injEq] at htext
  refine ⟨htext, hown, ?_⟩
  rw [← hc.queueIdHex, (mem_stream.mp hx).2.2]

theorem heard_of_acked (hA : A.Lawful) (hx : x ∈ ((n S).clients i).stream q)
    (hr : x.appAck ∈ ((n S).clients i).resolved) :
    ∃ text ∈ heard A q (n R), A.toS (A.toB x.msg) = .ok text := by
  have hx' := mem_stream.mp hx
  obtain ⟨v, hv, -, htext⟩ := hs.ackSound.acked S i x hx'.1 (hs.resolved x hx hr) hx'.2.1
    (hs.dest x hx) (by rw [hx'.2.2])
  exact ⟨v.pkt.msg, mem_heard.mpr ⟨v, hv, (hs.of_collide hA hx htext hv rfl).2.2, rfl⟩, htext⟩

theorem getElem?_heard {k : ℕ} {text : String} (hk : (heard A q (n R))[k]? = some text) :
    ∃ x, (((n S).clients i).stream q)[k]? = some x ∧ A.toS (A.toB x.msg) = .ok text := by
  obtain ⟨l, hl⟩ := hs.delivered
  have hk' : ((heard A q (n R)).map Except.ok ++ l)[k]? =
      some (Except.ok text : Except PyExc String) := by
    rw [List.getElem?_append_left (by simpa using (List.getElem?_eq_some_iff.mp hk).1),
      List.getElem?_map, hk]
    rfl
  rw [hl, List.getElem?_map, Option.map_eq_some_iff] at hk'
  exact hk'

theorem place_unique {j k : ℕ} {text : String} (hx : (((n S).clients i).stream q)[j]? = some x)
    (hy : (((n S).clients i).stream q)[k]? = some y) (hxt : A.toS (A.toB x.msg) = .ok text)
    (hyt : A.toS (A.toB y.msg) = .ok text) : j = k := by
  have hy' := mem_stream.mp (List.mem_of_getElem? hy)
  obtain ⟨-, -, rfl⟩ := hs.apart x (List.mem_of_getElem? hx) S i y hy'.1 hy'.2.1
    ⟨text, text, hxt, hyt, rfl⟩
  have hj := hs.numbered.seqNo j y hx
  have hk := hs.numbered.seqNo k y hy
  omega

theorem place_of_resolved (hA : A.Lawful) {k : ℕ}
    (hx : (((n S).clients i).stream q)[k]? = some x)
    (hr : x.appAck ∈ ((n S).clients i).resolved) :
    ∃ text, (heard A q (n R))[k]? = some text ∧ A.toS (A.toB x.msg) = .ok text := by
  obtain ⟨text, ht, htext⟩ := hs.heard_of_acked hA (List.mem_of_getElem? hx) hr
  obtain ⟨j, hj⟩ := List.mem_iff_getElem?.mp ht
  obtain ⟨y, hy, hyt⟩ := hs.getElem?_heard hj
  obtain rfl := hs.place_unique hx hy htext hyt
  exact ⟨text, hj, htext⟩

theorem next_heard (hA : A.Lawful) {k : ℕ} {text : String}
    (hx : (((n S).clients i).stream q)[k]? = some x) (hxt : A.toS (A.toB x.msg) = .ok text)
    (hn : text ∉ heard A q (n R)) : k = (heard A q (n R)).length := by
  have hk : k < (((n S).clients i).stream q).length := (List.getElem?_eq_some_iff.mp hx).1
  have hge : (heard A q (n R)).length ≤ k := by
    by_contra hlt
    obtain ⟨y, hy, hyt⟩ := hs.getElem?_heard (List.getElem?_eq_getElem (not_le.mp hlt))
    rw [hx] at hy
    cases hy
    rw [hxt, Except.ok.injEq] at hyt
    exact hn (hyt ▸ List.getElem_mem _)
  have hle : ∀ j, j + 1 < (((n S).clients i).stream q).length → j < (heard A q (n R)).length := by
    intro j hj
    obtain ⟨y, hy⟩ : ∃ y, (((n S).clients i).stream q)[j]? = some y :=
      ⟨_, List.getElem?_eq_getElem (by omega)⟩
    obtain ⟨t, ht, -⟩ := hs.place_of_resolved hA hy (hs.waited j y hy hj)
    exact (List.getElem?_eq_some_iff.mp ht).1
  by_contra hne
  have := hle (k - 1) (by omega)
  omega

end Streaming

variable [DecidableEq ι]

theorem Streaming.unconfused (hA : A.Lawful) (hs : Streaming A S R i q h n)
    (hw : Waiting A S R i q n (p, a)) : Unconfused A (fun b => b = A.hToB q) R n (p, a) where
  heeded hR := by
    refine ⟨fun k _ pkt hk hF hc => ?_, fun q' hq' hF => ?_⟩
    · obtain ⟨t, ht, hpc⟩ := mem_checking hk
      have hh := (hs.ackSound.traced.sound R).holds t (List.mem_of_getElem? ht)
      rw [hpc] at hh
      obtain ⟨hown, x, hx, hcar⟩ := hs.of_queueId hA (List.mem_of_getElem? ht) hh.1 hh.2 hF
      obtain ⟨v, hv, hhash⟩ := (hs.stamped _).mp hc
      obtain ⟨htext, hown', -⟩ := hs.of_collide hA hx hcar.msg hv hhash
      exact ⟨v, hv, htext, hown'.symm.trans hown⟩
    · cases a with
      | queueMsg j rnd msg dest q' t s =>
        cases t with
        | msgack =>
          cases hq'
          obtain ⟨-, -, -, ht, -⟩ := hw.own _ rfl hF
          cases ht
        | _ => cases hq'
      | _ => cases hq'
  named k _ pkt _ hF := by
    intro j y hy hu hty j' z hz hu'
    have hmem : ∀ {j : ι} {y : Queued}, y ∈ ((n p).clients j).queued →
        Under A (A.compactPublicKey (n R).kp) pkt y → y ∈ ((n S).clients i).stream q :=
      fun hy hu => (hs.only p _ _ hy (hu.2.1.trans hF)).elim (fun hack => absurd hack hu.1)
        fun h => h.2.2
    obtain ⟨k₁, hk₁⟩ := List.mem_iff_getElem?.mp (hmem hy hu)
    obtain ⟨k₂, hk₂⟩ := List.mem_iff_getElem?.mp (hmem hz hu')
    have h₁ := hs.numbered.seqNo k₁ y hk₁
    have h₂ := hs.numbered.seqNo k₂ z hk₂
    rw [hu.2.2.1] at h₁
    rw [hu'.2.2.1] at h₂
    obtain rfl : k₁ = k₂ := by omega
    rw [hk₁] at hk₂
    cases hk₂
    exact ⟨hty, rfl⟩

variable [DecidableEq P]

theorem Streaming.stream_step (hA : A.Lawful) (hs : Streaming A S R i q h n)
    (hw : Waiting A S R i q n (p, a)) (hstep : step A n (p, a) = some n') :
    Numbered q ((n' S).clients i) ∧
      (((n' S).clients i).stream q = ((n S).clients i).stream q ∨
        ∃ x rnd, a = .queueMsg i rnd x.msg x.destPkHex q .msg none ∧ p = S ∧ x.msgType = .msg ∧
          x.queueIdHex = q ∧ ((n' S).clients i).queued = ((n S).clients i).queued ++ [x] ∧
          ((n' S).clients i).stream q = ((n S).clients i).stream q ++ [x]) := by
  obtain ⟨r', hr, rfl⟩ := step_eq_some hstep
  by_cases hp : S = p
  · subst hp
    rw [Function.update_self]
    by_cases hown : ∃ rnd msg dest, a = .queueMsg i rnd msg dest q .msg none
    · obtain ⟨rnd, msg, dest, rfl⟩ := hown
      have hc : r'.clients i = Exec.final (MQTTClient.queueMsg A rnd (n S).clock msg dest q .msg none
          ((n S).clients i)) := by
        have hact := act_of_step hr
        cases hact
        rw [call_eq]
        exact Function.update_self ..
      obtain ⟨hnum, heq | ⟨x, heq, hty, hq, rfl, rfl⟩⟩ :=
        hs.numbered.queueMsg A rnd (n S).clock msg dest hc
      · exact ⟨hnum, .inl (stream_of_queued heq)⟩
      · refine ⟨hnum, .inr ⟨x, rnd, rfl, rfl, hty, hq, heq, ?_⟩⟩
        rw [stream, heq, List.filter_append]
        simp [stream, hty, hq]
    · have hwr := step_writes hA (hs.ackSound.traced.sound S) hr i
      have hreg : ∀ x, Cause A (n S) i a (.register x) → ¬ (x.msgType = .msg ∧ x.queueIdHex = q) := by
        rintro x hx ⟨hty, hq⟩
        cases hx with
        | queued =>
          simp only at hty hq
          subst hty hq
          obtain ⟨-, -, -, -, rfl, -⟩ := hw.own _ rfl rfl
          exact hown ⟨_, _, _, rfl⟩
        | probed | acked | probeAcked => cases hty
      have hunlink : ¬ Cause A (n S) i a (.unlink .msg q) := by
        intro hu
        cases hu with
        | dequeued => exact hw.dequeued rfl _ rfl rfl
      obtain ⟨hnum, hst⟩ := hs.numbered.of_writes hwr hreg (fun s hf => by cases hf) hunlink
      exact ⟨hnum, .inl hst⟩
  · rw [Function.update_of_ne hp]
    exact ⟨hs.numbered, .inl rfl⟩

theorem queued_step (hA : A.Lawful) (hsound : Sound A (n p)) {r' : Router KP ι}
    (hr : (n p).step A a = some r') {w : P} {j : ι}
    (hy : y ∈ ((Function.update n p r' w).clients j).queued) :
    y ∈ ((n w).clients j).queued ∨ w = p ∧ Cause A (n p) j a (.register y) := by
  by_cases hp : w = p
  · subst hp
    rw [Function.update_self] at hy
    exact ((step_writes hA hsound hr j).queued_cases hy).imp id fun hc => ⟨rfl, hc⟩
  · rw [Function.update_of_ne hp] at hy
    exact .inl hy

theorem Streaming.alone_step (hA : A.Lawful) (hs : Streaming A S R i q h n)
    (hw : Waiting A S R i q n (p, a)) (hstep : step A n (p, a) = some n') :
    (∀ p j, ∀ y ∈ ((n' p).clients j).queued, A.hToB y.queueIdHex = A.hToB q →
      y.msgType = .msgack ∨ p = S ∧ j = i ∧ y ∈ ((n' S).clients i).stream q) ∧
    ∀ x ∈ ((n' S).clients i).stream q, ∀ p j, ∀ y ∈ ((n' p).clients j).queued, y.msgType = .msg →
      Collide A x.msg y.msg → p = S ∧ j = i ∧ y = x := by
  obtain ⟨-, hstream⟩ := hs.stream_step hA hw hstep
  have hadv := hs.ackSound.traced.advances hA hstep
  obtain ⟨r', hr, rfl⟩ := step_eq_some hstep
  have hcases := fun {w j y} => queued_step (y := y) (w := w) (j := j) hA
    (hs.ackSound.traced.sound p) hr
  have hold : ∀ {x}, x ∈ ((n S).clients i).stream q →
      x ∈ ((Function.update n p r' S).clients i).stream q := by
    intro x hx
    obtain he | ⟨x', -, -, -, -, -, -, he⟩ := hstream
    · rw [he]; exact hx
    · rw [he]; exact List.mem_append_left _ hx
  constructor
  · intro p' j y hy hq
    obtain hy' | ⟨rfl, hc⟩ := hcases hy
    · exact (hs.only p' j y hy' hq).imp id fun ⟨h₁, h₂, h₃⟩ => ⟨h₁, h₂, hold h₃⟩
    · cases hc with
      | queued =>
        obtain ⟨rfl, rfl, rfl, rfl, -⟩ := hw.own _ rfl hq
        exact .inr ⟨rfl, rfl, mem_stream.mpr ⟨hy, rfl, rfl⟩⟩
      | probed => exact absurd hq (hw.probes _ rfl)
      | acked => exact .inl rfl
      | probeAcked => exact .inl rfl
  · intro x hx p' j y hy hty hcol
    obtain he | ⟨x', rnd, ha, rfl, hxt, hxq, hqueued, he⟩ := hstream
    · rw [he] at hx
      obtain hy' | ⟨rfl, hc⟩ := hcases hy
      · exact hs.apart x hx p' j y hy' hty hcol
      · have hx' := mem_stream.mp hx
        cases hc with
        | @queued rnd msg dest q' ty seqNo out ack hn =>
          simp only at hty
          subst hty
          exact absurd hcol.symm (hw.texts _ rfl rfl S i x hx'.1 hx'.2.1
            (.inr (by rw [hx'.2.2])))
        | probed => cases hty
        | acked => cases hty
        | probeAcked => cases hty
    · rw [he] at hx
      -- the message queued now meets none of the others
      have hfresh : ∀ {p j y}, y ∈ ((n p).clients j).queued → y.msgType = .msg →
          ¬ Collide A x'.msg y.msg := fun hy hty =>
        hw.texts ⟨i, x'.msg, x'.destPkHex, q, .msg, none⟩ (by rw [ha]; rfl) rfl _ _ _ hy hty (.inl rfl)
      have hnew : ∀ {p' j}, y ∈ ((Function.update n p r' p').clients j).queued →
          y ∈ ((n p').clients j).queued ∨ p' = p ∧ j = i ∧ y = x' := by
        intro p' j hy
        obtain hy' | ⟨rfl, hc⟩ := hcases hy
        · exact .inl hy'
        · subst ha
          obtain rfl : j = i := by cases hc; rfl
          rw [hqueued] at hy
          rcases List.mem_append.mp hy with hy | hy
          · exact .inl hy
          · exact .inr ⟨rfl, rfl, List.mem_singleton.mp hy⟩
      rcases List.mem_append.mp hx with hx₁ | hx₁
      · obtain hy' | ⟨rfl, rfl, rfl⟩ := hnew hy
        · exact hs.apart x hx₁ p' j y hy' hty hcol
        · have hx' := mem_stream.mp hx₁
          exact absurd hcol.symm (hfresh hx'.1 hx'.2.1)
      · obtain rfl := List.mem_singleton.mp hx₁
        obtain hy' | hy' := hnew hy
        · exact absurd hcol (hfresh hy' hty)
        · exact hy'

theorem Streaming.waited_step (hA : A.Lawful) (hs : Streaming A S R i q h n)
    (hw : Waiting A S R i q n (p, a)) (hstep : step A n (p, a) = some n') :
    (∀ (k : ℕ) (x : Queued), (((n' S).clients i).stream q)[k]? = some x →
      k + 1 < (((n' S).clients i).stream q).length → x.appAck ∈ ((n' S).clients i).resolved) ∧
    (∀ x ∈ ((n' S).clients i).stream q, x.appAck ∈ ((n' S).clients i).resolved →
      x.appAck ∈ ((n' S).clients i).acked) ∧
    ∀ x ∈ ((n' S).clients i).stream q, x.destPkHex = A.pkHex (n' R).kp := by
  obtain ⟨-, hstream⟩ := hs.stream_step hA hw hstep
  have hadv := hs.ackSound.traced.advances hA hstep
  have hg := hadv.grows S i
  have htrack := ((hs.ackSound.traced.step hA (hs.ackSound.traced.honest_of_relayed hA hw.relayed)
    hstep).sound S).tracked i
  obtain ⟨r', hr, rfl⟩ := step_eq_some hstep
  refine ⟨fun k x hx hk => ?_, fun x hx hres => ?_, fun x hx => ?_⟩
  · obtain he | ⟨x', rnd, rfl, rfl, -, -, -, he⟩ := hstream
    · rw [he] at hx hk
      exact hg.resolved (hs.waited k x hx hk)
    · rw [he, List.length_append, List.length_singleton] at hk
      rw [he, List.getElem?_append_left (by omega)] at hx
      refine hg.resolved ?_
      by_cases hlast : k + 1 < (((n p).clients i).stream q).length
      · exact hs.waited k x hx hlast
      · obtain ⟨-, -, -, -, -, -, hall⟩ := hw.own _ rfl rfl
        refine hall x ?_
        rw [List.getLast?_eq_getElem?, show (((n p).clients i).stream q).length - 1 = k by omega]
        exact hx
  · have hold : x.appAck ∈ ((n S).clients i).resolved →
        x.appAck ∈ ((Function.update n p r' S).clients i).acked := by
      intro hr'
      obtain ⟨y, hy, hack⟩ := ((hs.ackSound.traced.sound S).tracked i).resolved _ hr'
      obtain rfl := htrack.eq_of_appAck (hg.queued.subset hy) (mem_stream.mp hx).1 hack
      exact hg.acked (hs.resolved y (mem_stream.mpr ⟨hy, (mem_stream.mp hx).2⟩) hr')
    by_cases hp : S = p
    · subst hp
      have hwr := step_writes hA (hs.ackSound.traced.sound S) hr i
      rw [Function.update_self] at hres hx hold htrack hg ⊢
      obtain hr' | hr' | ⟨m, hc, hm⟩ := hwr.resolved_cases hres
      · exact hold hr'
      · exact hr'
      · cases hc with
        | @disabled q' s ty m he =>
          obtain ⟨msg, hmem⟩ := ((hs.ackSound.traced.sound S).tracked i).entry he
          obtain rfl := htrack.eq_of_appAck (hg.queued.subset hmem) (mem_stream.mp hx).1 hm
          obtain ⟨-, rfl, rfl⟩ := mem_stream.mp hx
          exact absurd rfl (hw.dequeued rfl _ rfl)
    · rw [Function.update_of_ne hp] at hres
      exact hold hres
  · rw [hadv.kp]
    obtain he | ⟨x', rnd, rfl, -, -, -, -, he⟩ := hstream
    · rw [he] at hx
      exact hs.dest x hx
    · rw [he] at hx
      rcases List.mem_append.mp hx with hx | hx
      · exact hs.dest x hx
      · obtain rfl := List.mem_singleton.mp hx
        obtain ⟨-, -, -, -, -, hd, -⟩ := hw.own _ rfl rfl
        exact hd

theorem heard_afterTurn {r : Router KP ι} {k : ℕ} {t : Task ι} {pc : TaskPc} {c : MQTTClient KP}
    {recv : PyDict String ℚ} {v : ℕ} :
    heard A q (r.afterTurn k t pc c recv [(v, pkt)]) =
      heard A q r ++ if A.hToB pkt.queueIdHex = A.hToB q then [pkt.msg] else [] := by
  simp only [heard, afterTurn, List.map_singleton, List.filter_append, List.map_append,
    List.filter_singleton]
  by_cases hq : A.hToB pkt.queueIdHex = A.hToB q <;> simp [hq]

theorem prefix_concat {α : Type} {l m : List α} {x : α} (h : l <+: m) (hx : m[l.length]? = some x) :
    l ++ [x] <+: m := by
  obtain ⟨t, rfl⟩ := h
  rw [List.getElem?_append_right le_rfl, Nat.sub_self] at hx
  cases t with
  | nil => cases hx
  | cons y t =>
    cases hx
    exact ⟨t, by rw [List.append_assoc]; rfl⟩

omit [DecidableEq P] in
/-- What the receiver's handler was called with stays a prefix of the stream, and exactly that is
stamped. -/
theorem Streaming.receiver_step (hA : A.Lawful) (hs : Streaming A S R i q h n)
    (hw : Waiting A S R i q n (R, a)) {r' : Router KP ι} (hr : (n R).step A a = some r') :
    (∀ t ∈ r'.tasks, t.pc.todo = []) ∧
    (∀ id, r'.recvMsgIds.contains id = true ↔ ∃ v ∈ r'.log, A.msgHash v.pkt.msg = id) ∧
    (heard A q r').map Except.ok <+:
      (((n S).clients i).stream q).map fun x => A.toS (A.toB x.msg) := by
  have hM := step_spec hA hr
  cases hM with
  | tick => exact ⟨hs.todo, hs.stamped, hs.delivered⟩
  | client => exact ⟨hs.todo, hs.stamped, hs.delivered⟩
  | prune =>
    refine ⟨hs.todo, fun id => ⟨fun hid => ?_, fun hid => ?_⟩, hs.delivered⟩
    · rw [← hs.stamped]
      obtain ⟨st, hst⟩ := Option.isSome_iff_exists.mp hid
      exact Option.isSome_iff_exists.mpr ⟨st, (PyDict.get?_of_get?_filter hst).1⟩
    · exact hw.stamps rfl _ hr id (PyDict.contains_iff.mp ((hs.stamped id).mpr hid))
  | @recv j topic payload withId pc hpc =>
    refine ⟨fun t ht => ?_, hs.stamped, hs.delivered⟩
    rcases List.mem_append.mp ht with ht | ht
    · exact hs.todo t ht
    · rw [List.mem_singleton.mp ht]
      obtain rfl | ⟨e, rfl⟩ | rfl := hpc
      · rfl
      · rfl
      · change ((n R).checkTopic A j topic).todo = []
        obtain ⟨e, he⟩ | he := checkTopic_pc (A := A) (n R) j topic <;>
        · rw [he]; rfl
  | @turn k res t pc c recv calls hk hT =>
    have ht := List.mem_of_getElem? hk
    have htodo : pc.todo = [] → ∀ u ∈ ((n R).afterTurn k t pc c recv calls).tasks, u.pc.todo = [] := by
      intro hpc u hu
      obtain hu | rfl := mem_tasks_afterTurn hk hu
      · exact hs.todo u hu
      · exact hpc
    obtain ⟨rfl, hpc, hrecv⟩ | ⟨pkt, y, todo, hpc, hn, hl, rfl, rfl, rfl⟩ |
      ⟨pkt, y, todo, size, hpc, -⟩ := hT.calls_cases
    · have hrecv : recv = (n R).recvMsgIds := by
        obtain hrecv | hl := hrecv
        · exact hrecv
        · rw [hs.handlers] at hl; cases hl
      subst hrecv
      refine ⟨htodo (TaskPc.todo_eq_nil hpc), ?_, ?_⟩
      · simpa [afterTurn] using hs.stamped
      · simpa [afterTurn, heard] using hs.delivered
    · have hh := (hs.ackSound.traced.sound R).holds t ht
      rw [hpc] at hh
      rw [hs.handlers, List.cons.injEq] at hl
      refine ⟨htodo hl.2.symm, fun id => ?_, ?_⟩
      · change (PyDict.set _ _ _).contains id = true ↔ _
        rw [PyDict.contains_set, Bool.or_eq_true, decide_eq_true_eq, hs.stamped]
        simp [afterTurn, or_comm, eq_comm]
      · rw [heard_afterTurn]
        split_ifs with hq
        · obtain ⟨-, x, hx, hc⟩ := hs.of_queueId hA ht hh.1 hh.2 hq
          obtain ⟨k', hk'⟩ := List.mem_iff_getElem?.mp hx
          have hnew : pkt.msg ∉ heard A q (n R) := by
            intro hmem
            obtain ⟨v, hv, -, hvm⟩ := mem_heard.mp hmem
            rw [(hs.stamped _).mpr ⟨v, hv, by rw [hvm]⟩] at hn
            cases hn
          have hnext := hs.next_heard hA hk' hc.msg hnew
          rw [List.map_append, List.map_singleton]
          refine prefix_concat hs.delivered ?_
          rw [List.length_map, ← hnext, List.getElem?_map, hk', Option.map_some, hc.msg]
        · rw [List.append_nil]
          exact hs.delivered
    · have := hs.todo t ht
      rw [hpc] at this
      cases this

theorem Streaming.step (hA : A.Lawful) (hs : Streaming A S R i q h n)
    (hw : Waiting A S R i q n (p, a)) (hstep : step A n (p, a) = some n') :
    Streaming A S R i q h n' := by
  have htr := hs.ackSound.traced
  obtain ⟨hnum, hstream⟩ := hs.stream_step hA hw hstep
  obtain ⟨honly, hapart⟩ := hs.alone_step hA hw hstep
  obtain ⟨hwaited, hres, hdest⟩ := hs.waited_step hA hw hstep
  have hadv := htr.advances hA hstep
  have hsound := hs.ackSound.step hA (htr.honest_of_relayed hA hw.relayed) (hs.unconfused hA hw) hstep
  have hpre : (((n S).clients i).stream q).map (fun x => A.toS (A.toB x.msg)) <+:
      (((n' S).clients i).stream q).map fun x => A.toS (A.toB x.msg) := by
    obtain he | ⟨x, -, -, -, -, -, -, he⟩ := hstream
    · rw [he]
    · rw [he, List.map_append]; exact List.prefix_append _ _
  obtain ⟨r', hr, rfl⟩ := step_eq_some hstep
  have hM := step_spec hA hr
  by_cases hR : R = p
  · subst hR
    obtain ⟨htodo, hst, hdel⟩ := hs.receiver_step hA hw hr
    refine ⟨hsound, ?_, hnum, hwaited, hres, hdest, honly, hapart, fun j => ?_, ?_, ?_, ?_⟩
    · intro t ht pkt hp
      simp only [Owns, hadv.kp]
      rw [Function.update_self] at ht
      obtain ⟨u, hu, -, -, hpay⟩ | ⟨withId, rfl⟩ := hM.tasks_cases ht
      · exact hs.owned u hu pkt (by rw [hpay]; exact hp)
      · obtain ⟨p, j, z, hz, -, hpay⟩ := hw.relayed _ rfl
        exact ⟨p, htr.owns_sent hA hz (by rw [hpay]; exact hp)⟩
    · rw [Function.update_self, (hM.writes hA (htr.sound R) j).msgHandlers]
      · exact hs.handlers j
      · intro x hx
        cases hx with
        | handler => cases hw.handlers rfl
    · rw [Function.update_self]; exact htodo
    · rw [Function.update_self]; exact hst
    · rw [Function.update_self]; exact hdel.trans hpre
  · have heq : Function.update n p r' R = n R := Function.update_of_ne hR _ _
    refine ⟨hsound, ?_, hnum, hwaited, hres, hdest, honly, hapart, ?_, ?_, ?_, ?_⟩
    · intro t ht pkt hp
      rw [heq] at ht
      simp only [Owns, hadv.kp]
      exact hs.owned t ht pkt hp
    · rw [heq]; exact hs.handlers
    · rw [heq]; exact hs.todo
    · rw [heq]; exact hs.stamped
    · rw [heq]; exact hs.delivered.trans hpre

omit [DecidableEq ι] [DecidableEq P] in
theorem Streaming.of_fresh (h₀ : ∀ p, Fresh (n p))
    (hkeys : Function.Injective fun p => A.pkHex (n p).kp)
    (hh : ∀ i, ((n R).clients i).msgHandlers.toList = [h]) : Streaming A S R i q h n := by
  have hnil : ∀ p i, ((n p).clients i).queued = [] := fun p i => (h₀ p).queued i
  have hstream : ((n S).clients i).stream q = [] := by simp [stream, hnil]
  have hentry : ∀ s, ((n S).clients i).entry .msg q s = none := by
    intro s
    simp [entry, queue, (h₀ S).msgQueues]
  refine ⟨.of_fresh h₀ hkeys fun i => by rw [hh]; simp, ?_, ⟨?_, ?_⟩, ?_, ?_, ?_, ?_, ?_, hh, ?_,
    ?_, ?_⟩
  · intro t ht; rw [(h₀ R).tasks] at ht; cases ht
  · intro k x hx; rw [hstream] at hx; cases hx
  · intro s
    rw [hentry, hstream]
    simp only [Option.isSome_none, Bool.false_eq_true, List.length_nil, Nat.cast_zero, false_iff]
    omega
  · intro k x hx; rw [hstream] at hx; cases hx
  · intro x hx; rw [hstream] at hx; cases hx
  · intro x hx; rw [hstream] at hx; cases hx
  · intro p j y hy; rw [hnil] at hy; cases hy
  · intro x hx; rw [hstream] at hx; cases hx
  · intro t ht; rw [(h₀ R).tasks] at ht; cases ht
  · intro id
    rw [(h₀ R).recvMsgIds, (h₀ R).log]
    simp [PyDict.contains]
  · rw [hstream, heard, (h₀ R).log]
    exact List.prefix_rfl

/-- Stop-and-wait delivery: the receiver's handler is called with a prefix of the stream, as it reads
the messages, and every message whose future is resolved was handed over in its place. Messages that
are read as what they are make up the prefix themselves. -/
theorem stop_and_wait (hA : A.Lawful) {n₀ : Net P KP ι} {as : List (P × Action ι)}
    (h₀ : ∀ p, Fresh (n₀ p)) (hkeys : Function.Injective fun p => A.pkHex (n₀ p).kp)
    (hh : ∀ i, ((n₀ R).clients i).msgHandlers.toList = [h])
    (has : Machine.Meets (Net.step A) (Waiting A S R i q) n₀ as)
    (hrun : Machine.run (Net.step A) n₀ as = some n) :
    (heard A q (n R)).map Except.ok <+:
        (((n S).clients i).stream q).map (fun x => A.toS (A.toB x.msg)) ∧
      (∀ (k : ℕ) (x : Queued), (((n S).clients i).stream q)[k]? = some x →
        x.appAck ∈ ((n S).clients i).resolved →
          ∃ text, (heard A q (n R))[k]? = some text ∧ A.toS (A.toB x.msg) = .ok text) ∧
      ((∀ x ∈ ((n S).clients i).stream q,
          ∃ text, x.msg = .str text ∧ A.toS (A.toB x.msg) = .ok text) →
        (heard A q (n R)).map PyMsg.str <+: (((n S).clients i).stream q).map Queued.msg) := by
  have hs : Streaming A S R i q h n := Machine.run_invariant
    (fun _ _ _ hs hw hst => hs.step hA hw hst) (.of_fresh h₀ hkeys hh) has hrun
  refine ⟨hs.delivered, fun k x hx hr => hs.place_of_resolved hA hx hr, fun hread => ?_⟩
  have hpre := hs.delivered.map fun e => match e with
    | .ok text => PyMsg.str text
    | .error _ => PyMsg.bytes []
  have hmsgs : (((n S).clients i).stream q).map Queued.msg =
      ((((n S).clients i).stream q).map fun x => A.toS (A.toB x.msg)).map fun e => match e with
        | .ok text => PyMsg.str text
        | .error _ => PyMsg.bytes [] := by
    rw [List.map_map]
    refine List.map_congr_left fun x hx => ?_
    obtain ⟨text, hmsg, htext⟩ := hread x hx
    rw [Function.comp_apply, htext, hmsg]
  rw [hmsgs]
  simpa [List.map_map, Function.comp_def] using hpre

open Concrete

def twoMessages : List (Bool × Action Unit) :=
  [(true, .queueMsg () 0 (.str "one") (concrete.pkHex 2) (queueId 'a') .msg none)] ++
    List.replicate 4 (true, .dispatch () 0) ++
    [(false, .recv () (concrete.pkHex 2) (signedBy 1 100 (queueId 'a') 0 .msg "one") false)] ++
    List.replicate 4 (false, .resume 0 (.ok 0)) ++ List.replicate 5 (false, .dispatch () 0) ++
    [(true, .recv () (concrete.pkHex 1) (signedBy 2 100 (queueId 'a') 0 .msgack "ack") false),
      (true, .resume 0 (.ok 0)),
      (true, .queueMsg () 0 (.str "two") (concrete.pkHex 2) (queueId 'a') .msg none)]

theorem stop_and_wait_two : ∃ n, Machine.run (step concrete) pair twoMessages = some n ∧
    heard concrete (queueId 'a') (n false) = ["one"] ∧
    (heard concrete (queueId 'a') (n false)).map PyMsg.str <+:
      (((n true).clients ()).stream (queueId 'a')).map Queued.msg := by
  obtain ⟨n, hn, hm, hd⟩ := Machine.exists_runMeeting_of_any (step concrete)
    (Waiting concrete true false () (queueId 'a')) pair twoMessages
    (fun n => decide (heard concrete (queueId 'a') (n false) = ["one"] ∧
      ∀ x ∈ ((n true).clients ()).stream (queueId 'a'), x.msg ∈ [PyMsg.str "one", PyMsg.str "two"]))
    (by decide +kernel)
  obtain ⟨hheard, hmsgs⟩ := of_decide_eq_true hd
  refine ⟨n, hn, hheard, (stop_and_wait concrete_lawful fresh_pair (by decide +kernel)
    (h := 5) (fun _ => rfl) hm hn).2.2 fun x hx => ?_⟩
  have hmsg := hmsgs x hx
  simp only [List.mem_cons, List.not_mem_nil, or_false] at hmsg
  obtain hmsg | hmsg := hmsg <;> rw [hmsg]
  · exact ⟨"one", rfl, by decide +kernel⟩
  · exact ⟨"two", rfl, by decide +kernel⟩

/-- Two texts of which `to_b` keeps nothing, the second queued when the first was acknowledged. -/
def twoAccents : List (Bool × Action Unit) :=
  [(true, .queueMsg () 0 (.str "é") (concrete.pkHex 2) (queueId 'a') .msg none)] ++
    List.replicate 4 (true, .dispatch () 0) ++
    [(false, .recv () (concrete.pkHex 2) (signedBy 1 100 (queueId 'a') 0 .msg "é") false)] ++
    List.replicate 4 (false, .resume 0 (.ok 0)) ++ List.replicate 5 (false, .dispatch () 0) ++
    [(true, .recv () (concrete.pkHex 1) (signedBy 2 100 (queueId 'a') 0 .msgack "ack") false),
      (true, .resume 0 (.ok 0)),
      (true, .queueMsg () 0 (.str "ü") (concrete.pkHex 2) (queueId 'a') .msg none)] ++
    List.replicate 11 (true, .dispatch () 0) ++
    [(false, .recv () (concrete.pkHex 2) (signedBy 1 100 (queueId 'a') 1 .msg "ü") false)] ++
    List.replicate 3 (false, .resume 1 (.ok 0)) ++ List.replicate 9 (false, .dispatch () 0) ++
    [(true, .recv () (concrete.pkHex 1) (signedBy 2 100 (queueId 'a') 1 .msgack "ack") false),
      (true, .resume 1 (.ok 0))]

/-- The second text is acknowledged, and the handler was called once. -/
theorem not_stop_and_wait : ∃ n, Machine.run (step concrete) pair twoAccents = some n ∧
    Machine.Meets (step concrete) (OneByOne concrete true false () (queueId 'a')) pair twoAccents ∧
    (∀ x ∈ ((n true).clients ()).stream (queueId 'a'), x.appAck ∈ ((n true).clients ()).resolved) ∧
    (((n true).clients ()).stream (queueId 'a')).map Queued.msg = [.str "é", .str "ü"] ∧
    (heard concrete (queueId 'a') (n false)).length = 1 := by
  obtain ⟨n, hn, hm, hd⟩ := Machine.exists_runMeeting_of_any (step concrete)
    (OneByOne concrete true false () (queueId 'a')) pair twoAccents
    (fun n => decide ((∀ x ∈ ((n true).clients ()).stream (queueId 'a'),
        x.appAck ∈ ((n true).clients ()).resolved) ∧
      (((n true).clients ()).stream (queueId 'a')).map Queued.msg = [.str "é", .str "ü"] ∧
      (heard concrete (queueId 'a') (n false)).length = 1)) (by decide +kernel)
  exact ⟨n, hn, hm, of_decide_eq_true hd⟩

end Net

end Sidewire
