import Sidewire.Mqtt.Layout
import Sidewire.Mqtt.Numbers

/-! # Addresses as text

A queue id and a key are text in the tables and bytes on the wire, and come back
from the wire in lower case. The ack of a message is looked up under its
spelling, so it finds the message exactly if this was queued under the spelling
that `to_h` gives its bytes.
-/

namespace Sidewire

namespace MQTTClient

open Exec

variable {KP : Type} {A : Aio KP} {c c' d : MQTTClient KP} {pkt : AppPacket} {t : MsgEnum}
  {q dest : String} {s : ℤ} {m : Meta} {a : ℕ}

@[simp] theorem resolved_putQueue (c : MQTTClient KP) (t : MsgEnum) (q : String) (d : Queue) :
    (c.putQueue t q d).resolved = c.resolved := rfl

@[simp] theorem resolved_unlinkQueue (c : MQTTClient KP) (t : MsgEnum) (q : String) (d : Queue) :
    (c.unlinkQueue t q d).resolved = c.resolved := rfl

@[simp] theorem resolved_deleteEntry (c : MQTTClient KP) (t : MsgEnum) (q : String) (s : ℤ) :
    (c.deleteEntry t q s).resolved = c.resolved := by
  unfold deleteEntry
  split
  · rfl
  · simp only
    split_ifs <;> rfl

/-- The message an ack is for: the one under its queue id and number, sent to the key it comes
from. -/
def acks (c : MQTTClient KP) (pkt : AppPacket) (t : MsgEnum) : Option Meta :=
  (c.entry t pkt.queueIdHex pkt.seqNo).filter fun m => m.destPkHex = pkt.srcPkHex

theorem acks_eq_some_iff : c.acks pkt t = some m ↔
    c.entry t pkt.queueIdHex pkt.seqNo = some m ∧ m.destPkHex = pkt.srcPkHex := by
  rw [acks, Option.filter_eq_some_iff, decide_eq_true_eq]

theorem ackIn_of_none (h : c.acks pkt t = none) : c.ackIn pkt t = none := by
  unfold ackIn
  cases hm : c.entry t pkt.queueIdHex pkt.seqNo with
  | none => rfl
  | some m =>
    have hne : m.destPkHex ≠ pkt.srcPkHex := by
      intro heq
      rw [acks_eq_some_iff.mpr ⟨hm, heq⟩] at h
      cases h
    exact if_pos hne

theorem ackIn_of_some (h : c.acks pkt t = some m) : ∃ c', c.ackIn pkt t = some c' ∧
    ∀ a, a ∈ c'.resolved ↔ a = m.appAck ∨ a ∈ c.resolved := by
  obtain ⟨hm, hdest⟩ := acks_eq_some_iff.mp h
  unfold ackIn
  simp only [hm, ne_eq, hdest, not_true_eq_false, if_false]
  split_ifs with hdone hshot
  · refine ⟨c, rfl, ?_⟩
    intro a
    constructor
    · exact Or.inr
    · rintro (rfl | ha)
      · exact of_decide_eq_true hdone
      · exact ha
  · refine ⟨_, rfl, ?_⟩
    intro a
    rw [resolved_deleteEntry]
    exact List.mem_cons
  · exact ⟨_, rfl, fun a => List.mem_cons⟩

theorem mem_resolved_processAppAck : a ∈ (c.processAppAck pkt).resolved ↔
    (∃ m, (c.acks pkt .msg).or (c.acks pkt .probe) = some m ∧ a = m.appAck) ∨ a ∈ c.resolved := by
  unfold processAppAck
  cases hmsg : c.acks pkt .msg with
  | some m =>
    obtain ⟨c', hc', hiff⟩ := ackIn_of_some hmsg
    rw [hc', Option.some_or]
    simpa using hiff a
  | none =>
    rw [ackIn_of_none hmsg, Option.none_or]
    cases hprobe : c.acks pkt .probe with
    | some m =>
      obtain ⟨c', hc', hiff⟩ := ackIn_of_some hprobe
      rw [hc']
      simpa using hiff a
    | none =>
      rw [ackIn_of_none hprobe]
      simp

theorem resolves_iff (hc : Tracked A c) (hm : c.entry .msg q s = some m)
    (hopen : m.appAck ∉ c.resolved) : m.appAck ∈ (c.processAppAck pkt).resolved ↔
      pkt.queueIdHex = q ∧ pkt.seqNo = s ∧ pkt.srcPkHex = m.destPkHex := by
  rw [mem_resolved_processAppAck]
  constructor
  · rintro (⟨m', hm', hack⟩ | ha)
    · obtain ⟨t, hentry, hdest⟩ : ∃ t, c.entry t pkt.queueIdHex pkt.seqNo = some m' ∧
          m'.destPkHex = pkt.srcPkHex := by
        rcases Option.or_eq_some_iff.mp hm' with h | ⟨-, h⟩
        · exact ⟨.msg, acks_eq_some_iff.mp h⟩
        · exact ⟨.probe, acks_eq_some_iff.mp h⟩
      obtain ⟨msg, hx⟩ := hc.entry hm
      obtain ⟨msg', hx'⟩ := hc.entry hentry
      have heq := hc.eq_of_appAck hx hx' hack
      simp only [Queued.of, Queued.mk.injEq] at heq
      obtain ⟨-, hq, hs, hdest', -⟩ := heq
      exact ⟨hq.symm, hs.symm, by rw [hdest', hdest]⟩
    · exact absurd ha hopen
  · rintro ⟨rfl, rfl, hdest⟩
    left
    exact ⟨m, by rw [acks_eq_some_iff.mpr ⟨hm, hdest.symm⟩, Option.some_or], rfl⟩

theorem queueMsg_eq_ok {rnd : ℕ} {now : ℚ} {msg : PyMsg} {seqNo : Option ℤ} {x : String × ℤ}
    (h : queueMsg A rnd now msg dest q t seqNo c = .ok (x, a) d) :
    x.1 = q ∧ ∃ m, d.entry t q x.2 = some m ∧ m.appAck = a ∧
      (c.entry t q x.2 = none → m.destPkHex = dest) := by
  simp only [queueMsg, orderedAckSend, bind_apply, modify_apply] at h
  obtain ⟨e, h', -⟩ | ⟨c₁, h', -, -, hs, -⟩ :=
    orderedAckSendBegin_spec (A := A) now msg dest q t seqNo { c with lastSend := some now }
  · rw [h'] at h
    cases h
  · rw [h'] at h
    simp only [get_apply, ofExcept_apply] at h
    generalize Option.getD seqNo _ = n at h
    cases hp : AppPacket.pack A c₁.kp rnd now ⟨q, n, t, msg⟩ with
    | error e =>
      rw [hp] at h
      cases h
    | ok out =>
      rw [hp] at h
      simp only at h
      obtain ⟨-, h''⟩ | ⟨m, hm, h''⟩ | ⟨dq, hdq, hnone, h''⟩ :=
        orderedAckSendEnd_spec now msg dest q t n out c₁
      · rw [h''] at h
        cases h
      · rw [h''] at h
        cases h
        refine ⟨rfl, m, hm, rfl, ?_⟩
        intro hnone
        rw [hs.entry, entry_ensureQueue] at hm
        rw [show c.entry t q n = some m from hm] at hnone
        cases hnone
      · rw [h''] at h
        cases h
        refine ⟨rfl, c₁.newMeta now dest n out false, ?_, rfl, fun _ => rfl⟩
        rw [entry_register _ _ _ _ _ _ hdq, if_pos ⟨rfl, rfl, rfl⟩]

theorem tracked_queueMsg (hA : A.Lawful) (hc : Tracked A c) {rnd : ℕ} {now : ℚ} {msg : PyMsg}
    {seqNo : Option ℤ} {r : (String × ℤ) × ℕ}
    (h : queueMsg A rnd now msg dest q t seqNo c = .ok r d) : Tracked A d := by
  have hw : Writes A (fun _ => True) c (final (queueMsg A rnd now msg dest q t seqNo c)) :=
    writes_queueMsg hA fun _ _ _ => trivial
  rw [h] at hw
  exact hw.tracked hc

/-- A peer receives these bytes, queues its ack, and the ack is read as the given packet. -/
def Answers (A : Aio KP) (peer : MQTTClient KP) (out : Bytes) (pkt : AppPacket) : Prop :=
  ∃ p, AppPacket.unpack A out = .ok (some p) ∧ ∃ now rnd signed peer',
    queueMsgAsyncBegin A now (.str "ack") p.srcPkHex p.queueIdHex .msgack (some p.seqNo) peer =
      .ok (p.seqNo, signed) peer' ∧
    AppPacket.unpack A (AppPacket.assemble A peer.kp rnd signed) = .ok (some pkt)

variable {peer : MQTTClient KP} {qid out : Bytes}

theorem Answers.fields (hA : A.Lawful) {x : Queued} (h : Answers A peer x.out pkt)
    (hx : Packed A c.kp x) (hq : A.hToB x.queueIdHex = .ok qid) :
    pkt.queueIdHex = A.toH qid ∧ pkt.seqNo = x.seqNo ∧ pkt.srcPkHex = A.pkHex peer.kp := by
  obtain ⟨p, hp, now, rnd, signed, peer', hbegin, hpkt⟩ := h
  obtain ⟨sent, section_, rnd', hsigned, hout⟩ := hx
  rw [hout] at hp
  obtain ⟨-, hqueue, hseq, -⟩ := AppPacket.unpack_assemble hA hsigned hp
  have hack : AppPacket.Signed A now ⟨p.queueIdHex, p.seqNo, .msgack, .str "ack"⟩
      (A.toB (.str "ack")) signed := by
    obtain ⟨e, d, herr, -⟩ | ⟨signed', d, hok, hsig, -⟩ := queueMsgAsyncBegin_spec (A := A) now
      (.str "ack") p.srcPkHex p.queueIdHex .msgack p.seqNo peer
    · rw [herr] at hbegin
      cases hbegin
    · rw [hok] at hbegin
      cases hbegin
      exact hsig
  obtain ⟨hsrc, hqueue', hseq', -⟩ := AppPacket.unpack_assemble hA hack hpkt
  refine ⟨?_, hseq'.trans hseq, hsrc⟩
  have hspelled := (AppPacket.unpack_spec hpkt).queueIdHex
  have hbytes : A.hToB pkt.queueIdHex = .ok qid := hqueue'.trans (hqueue.trans hq)
  rw [hspelled, hA.hToB_toH, Except.ok.injEq] at hbytes
  rw [hspelled, hbytes]

theorem exists_answer (hA : A.Lawful) {p : AppPacket} (hp : AppPacket.unpack A out = .ok (some p))
    (now : ℚ) (h₀ : 0 ≤ pyInt now) (h₁ : pyInt now < 256 ^ timestampLen)
    (peer : MQTTClient KP) : ∃ pkt, Answers A peer out pkt := by
  have hacc := AppPacket.unpack_spec hp
  obtain ⟨e, d, -, -, herr⟩ | ⟨signed, d, hok, hsig, -⟩ := queueMsgAsyncBegin_spec (A := A) now
    (.str "ack") p.srcPkHex p.queueIdHex .msgack p.seqNo peer
  · obtain ⟨signed, hsigned⟩ := AppPacket.packAsyncBegin_ack_ok hA hacc h₀ h₁ (.str "ack")
    rw [herr (hacc.length_queueIdHex hA) (hacc.length_srcPkHex hA)] at hsigned
    cases hsigned
  · obtain ⟨e, herr, -⟩ | ⟨pkt, hpkt, -⟩ := hsig.unpack hA peer.kp 0
    · rw [hA.toS_toB_ack] at herr
      cases herr
    · exact ⟨pkt, p, hp, now, 0, signed, d, hok, hpkt⟩

/-- A message is queued, the peer receives it and answers, and the answer arrives while the message
is still queued: it resolves the sender's future exactly if queue id and destination were spelled as
`to_h` spells their bytes. -/
theorem answer_resolves_iff (hA : A.Lawful) (hc : Tracked A c) (hq : A.hToB q = .ok qid)
    {rnd : ℕ} {now : ℚ} {msg : PyMsg} {seqNo : Option ℤ} {x : String × ℤ}
    (hsend : queueMsg A rnd now msg dest q .msg seqNo c = .ok (x, a) d) :
    x.1 = q ∧ ∃ m, d.entry .msg q x.2 = some m ∧ m.appAck = a ∧
      (c.entry .msg q x.2 = none → m.destPkHex = dest) ∧
      ∀ later peer pkt m', Tracked A later → later.entry .msg q x.2 = some m' → m'.core = m.core →
        a ∉ later.resolved → A.hToB m.destPkHex = .ok (A.compactPublicKey peer.kp) →
        Answers A peer m.out pkt →
        (a ∈ (later.processAppAck pkt).resolved ↔
          q = A.toH qid ∧ m.destPkHex = A.toH (A.compactPublicKey peer.kp)) := by
  obtain ⟨hx, m, hm, rfl, hdest⟩ := queueMsg_eq_ok hsend
  have hd := tracked_queueMsg hA hc hsend
  refine ⟨hx, m, hm, rfl, hdest, ?_⟩
  intro later peer pkt m' hlater hm' hcore hopen _ hanswer
  obtain ⟨text, hqueued⟩ := hd.entry hm
  obtain ⟨hqueue, hseq, hsrc⟩ := hanswer.fields hA (hd.packed _ hqueued) hq
  rw [← Meta.appAck_eq_of_core hcore] at hopen ⊢
  rw [resolves_iff hlater hm' hopen, hqueue, hsrc, Meta.destPkHex_eq_of_core hcore]
  constructor
  · rintro ⟨hspelled, -, hkey⟩
    exact ⟨hspelled.symm, hkey.symm⟩
  · rintro ⟨hspelled, hkey⟩
    exact ⟨hspelled.symm, hseq, hkey.symm⟩

open Concrete

def roundTrip (kp : ℕ) (dest q : String) : Option Bool :=
  match queueMsg concrete 0 1 (.str "hi") dest q .msg none (init 1 .empty) with
  | .error _ _ => none
  | .ok (x, a) c =>
    match c.entry .msg x.1 x.2 with
    | none => none
    | some m =>
      match AppPacket.unpack concrete m.out with
      | .ok (some p) =>
        match queueMsgAsyncBegin concrete 1 (.str "ack") p.srcPkHex p.queueIdHex .msgack
            (some p.seqNo) (init kp .empty) with
        | .error _ _ => none
        | .ok (_, signed) peer =>
          match AppPacket.unpack concrete (AppPacket.assemble concrete peer.kp 0 signed) with
          | .ok (some pkt) => some (decide (a ∈ (c.processAppAck pkt).resolved))
          | _ => none
      | _ => none

def upperCase (s : String) : String := String.ofList (s.toList.map Char.toUpper)

/-- With capital letters in the queue id, or in the destination, the answer goes unnoticed. -/
theorem not_answer_resolves_upper :
    concrete.hToB (upperCase (queueId 'a')) = concrete.hToB (queueId 'a') ∧
    concrete.hToB (upperCase (concrete.pkHex 171)) = .ok (concrete.compactPublicKey 171) ∧
    roundTrip 171 (concrete.pkHex 171) (queueId 'a') = some true ∧
    roundTrip 171 (concrete.pkHex 171) (upperCase (queueId 'a')) = some false ∧
    roundTrip 171 (upperCase (concrete.pkHex 171)) (queueId 'a') = some false := by
  decide +kernel

/-- In lower case the answer resolves the future. -/
theorem answer_resolves_lower : ∃ x a d m pkt,
    queueMsg concrete 0 1 (.str "hi") (concrete.pkHex 171) (queueId 'a') .msg none
      (init 1 .empty) = .ok (x, a) d ∧
    d.entry .msg (queueId 'a') x.2 = some m ∧ Answers concrete (init 171 .empty) m.out pkt ∧
    a ∈ (d.processAppAck pkt).resolved := by
  have hqueued : (match queueMsg concrete 0 1 (.str "hi") (concrete.pkHex 171) (queueId 'a') .msg
      none (init 1 .empty) with
    | .ok (x, a) d => decide (a ∉ d.resolved ∧ ((d.entry .msg (queueId 'a') x.2).map fun m =>
        (AppPacket.unpack concrete m.out).map Option.isSome) = some (.ok true))
    | .error _ _ => false) = true := by decide +kernel
  cases hsend : queueMsg concrete 0 1 (.str "hi") (concrete.pkHex 171) (queueId 'a') .msg none
      (init 1 .empty) with
  | error e d =>
    rw [hsend] at hqueued
    cases hqueued
  | ok r d =>
    obtain ⟨x, a⟩ := r
    rw [hsend] at hqueued
    obtain ⟨hopen, hread⟩ := of_decide_eq_true hqueued
    have hinit : Tracked concrete (init 1 HandlerSet.empty) := tracked_init
    obtain ⟨-, m, hm, -, hkey, hiff⟩ := answer_resolves_iff concrete_lawful hinit
      (by decide +kernel : concrete.hToB (queueId 'a') = .ok (List.replicate 32 170)) hsend
    rw [hm] at hread
    have hdest : m.destPkHex = concrete.pkHex 171 := hkey rfl
    obtain ⟨p, hp⟩ : ∃ p, AppPacket.unpack concrete m.out = .ok (some p) := by
      cases hunpack : AppPacket.unpack concrete m.out with
      | error e => simp [hunpack, Except.map] at hread
      | ok r =>
        cases r with
        | none => simp [hunpack, Except.map] at hread
        | some p => exact ⟨p, rfl⟩
    obtain ⟨pkt, hanswer⟩ := exists_answer concrete_lawful hp 1 (by decide +kernel)
      (by decide +kernel) (init 171 .empty)
    have hd := tracked_queueMsg concrete_lawful hinit hsend
    refine ⟨x, a, d, m, pkt, rfl, hm, hanswer, ?_⟩
    exact (hiff d (init 171 .empty) pkt m hd hm rfl hopen
      (by rw [hdest]; exact concrete_lawful.hToB_toH _) hanswer).mpr
      ⟨by decide +kernel, hdest⟩

end MQTTClient

end Sidewire
