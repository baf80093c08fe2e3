import Sidewire.Mqtt.Concrete
import Sidewire.Mqtt.Packet

/-! # The PUBLISH codec

Building a PUBLISH and cutting one apart again: a topic with its length in
front, a packet id where the QoS bits ask for one, and the payload.
-/

namespace Sidewire

variable {KP : Type}

def mqttEncStr (A : Aio KP) (s : String) : Except PyExc Bytes := do
  let b := A.toB (.str s)
  let len ← structPack 2 b.length
  return len ++ b

def buildPublish (A : Aio KP) (topic : String) (payload : PyMsg) (packetId : Bytes) (dup : Bool) :
    Except PyExc Bytes := do
  let topicBytes ← mqttEncStr A topic
  let pl := topicBytes ++ packetId ++ A.toB payload
  let header := 0x30 ||| 1 <<< 1
  let header := if dup then header ||| 0x08 else header
  return [UInt8.ofNat header] ++ mqttEncodeVarint pl.length ++ pl

/-- The topic, the payload and, with QoS above 0, the packet id; nothing for a malformed body. -/
def mqttParsePublish (A : Aio KP) (packet : MQTTPacket) :
    Except PyExc (Option (String × Bytes × Option Bytes)) :=
  let body := packet.body
  if body.length < 2 then .ok none
  else
    let tlen := BigEndian.ofBytes (slice 0 2 body)
    if body.length < 2 + tlen then .ok none
    else do
      let topic ← A.toS (slice 2 tlen body)
      let qos := packet.flags >>> 1 &&& 0x03
      if qos > 0 then
        if body.length < 2 + tlen + 2 then return none
        else
          return some (topic, body.drop (2 + tlen + 2), some (slice (2 + tlen) 2 body))
      else return some (topic, body.drop (2 + tlen), none)

def topicLength (body : Bytes) : ℕ := BigEndian.ofBytes (slice 0 2 body)

def requiredLength (flags : ℕ) (body : Bytes) : ℕ :=
  if body.length < 2 then 2
  else 2 + topicLength body + if flags >>> 1 &&& 0x03 = 0 then 0 else 2

variable {A : Aio KP} {topic : String} {payload : PyMsg} {packetId body : Bytes} {dup : Bool}
  {flags : ℕ}

theorem mqttEncStr_ok (h : (A.toB (.str topic)).length ≤ 65535) :
    mqttEncStr A topic = .ok (BigEndian.toBytes 2 (A.toB (.str topic)).length ++
      A.toB (.str topic)) := by
  rw [mqttEncStr, AppPacket.structPack_ok (by omega) (by norm_num; omega)]
  rfl

/-- The packet that `buildPublish` spells out. -/
def publishPacket (A : Aio KP) (topic : String) (payload : PyMsg) (packetId : Bytes) (dup : Bool) :
    MQTTPacket where
  type := .publish
  flags := if dup then 10 else 2
  variableHeader := BigEndian.toBytes 2 (A.toB (.str topic)).length ++ A.toB (.str topic) ++ packetId
  payload := A.toB payload

theorem buildPublish_eq (h : (A.toB (.str topic)).length ≤ 65535) :
    buildPublish A topic payload packetId dup =
      .ok (publishPacket A topic payload packetId dup).build := by
  rw [buildPublish, mqttEncStr_ok h]
  cases dup <;> simp only [publishPacket, MQTTPacket.build, mqttBuildHeader, MQTTEnum.value] <;> rfl

theorem mqttParsePublish_long {packet : MQTTPacket}
    (h : requiredLength packet.flags packet.body ≤ packet.body.length)
    (hutf : A.toS (slice 2 (topicLength packet.body) packet.body) = .ok topic) :
    mqttParsePublish A packet = .ok (some (topic,
      packet.body.drop (requiredLength packet.flags packet.body),
      if packet.flags >>> 1 &&& 0x03 = 0 then none
      else some (slice (2 + topicLength packet.body) 2 packet.body))) := by
  rw [requiredLength] at h ⊢
  by_cases hshort : packet.body.length < 2
  · rw [if_pos hshort] at h
    omega
  · rw [if_neg hshort] at h ⊢
    have htopic : ¬ packet.body.length < 2 + topicLength packet.body := by omega
    rw [topicLength] at hutf h htopic ⊢
    simp only [mqttParsePublish, if_neg hshort, if_neg htopic, hutf]
    by_cases hqos : packet.flags >>> 1 &&& 0x03 = 0
    · simp only [hqos, lt_irrefl, if_false, if_true, Nat.add_zero]
      rfl
    · have hid : ¬ packet.body.length < 2 + BigEndian.ofBytes (slice 0 2 packet.body) + 2 := by
        rw [if_neg hqos] at h
        omega
      simp only [gt_iff_lt, Nat.pos_of_ne_zero hqos, if_true, if_neg hid, if_neg hqos]
      rfl

theorem mqttParsePublish_short {packet : MQTTPacket}
    (h : packet.body.length < requiredLength packet.flags packet.body)
    (hutf : 2 + topicLength packet.body ≤ packet.body.length →
      ∃ topic, A.toS (slice 2 (topicLength packet.body) packet.body) = .ok topic) :
    mqttParsePublish A packet = .ok none := by
  rw [requiredLength] at h
  by_cases hshort : packet.body.length < 2
  · simp only [mqttParsePublish, if_pos hshort]
  · rw [if_neg hshort] at h
    by_cases htopic : packet.body.length < 2 + topicLength packet.body
    · rw [topicLength] at htopic
      simp only [mqttParsePublish, if_neg hshort, if_pos htopic]
    · obtain ⟨topic, htext⟩ := hutf (not_lt.mp htopic)
      -- only the packet id can be missing
      have hqos : packet.flags >>> 1 &&& 0x03 ≠ 0 := by
        intro hqos
        rw [if_pos hqos] at h
        omega
      rw [if_neg hqos] at h
      rw [topicLength] at htopic htext h
      simp only [mqttParsePublish, if_neg hshort, if_neg htopic, htext, gt_iff_lt,
        Nat.pos_of_ne_zero hqos, if_true]
      simp [h, pure, Except.pure, bind, Except.bind]

theorem two_le_requiredLength : 2 ≤ requiredLength flags body := by
  rw [requiredLength]
  split_ifs <;> omega

theorem body_eq_append (body : Bytes) (flags : ℕ) :
    body.take 2 ++ slice 2 (topicLength body) body ++
        (if flags >>> 1 &&& 0x03 = 0 then none
          else some (slice (2 + topicLength body) 2 body)).getD [] ++
        body.drop (2 + topicLength body + if flags >>> 1 &&& 0x03 = 0 then 0 else 2) = body := by
  have htopic := AppPacket.drop_append_slice 2 (topicLength body) body
  have hid := AppPacket.drop_append_slice (2 + topicLength body) 2 body
  by_cases hqos : flags >>> 1 &&& 0x03 = 0
  · simp only [hqos, if_true, Option.getD_none, List.append_nil, Nat.add_zero, List.append_assoc]
    rw [htopic, List.take_append_drop]
  · simp only [hqos, if_false, Option.getD_some, List.append_assoc]
    rw [hid, htopic, List.take_append_drop]

theorem received_publishPacket (payload : PyMsg) (dup : Bool)
    (hlen : (A.toB (.str topic)).length ≤ 65535)
    (hid : packetId.length = 2) :
    topicLength (publishPacket A topic payload packetId dup).received.body =
        (A.toB (.str topic)).length ∧
      slice 2 (A.toB (.str topic)).length
        (publishPacket A topic payload packetId dup).received.body = A.toB (.str topic) ∧
      slice (2 + (A.toB (.str topic)).length) 2
        (publishPacket A topic payload packetId dup).received.body = packetId ∧
      (publishPacket A topic payload packetId dup).received.body.drop
        (2 + (A.toB (.str topic)).length + 2) = A.toB payload := by
  have hbody : (publishPacket A topic payload packetId dup).received.body =
      BigEndian.toBytes 2 (A.toB (.str topic)).length ++
        (A.toB (.str topic) ++ (packetId ++ A.toB payload)) := by
    simp [publishPacket, MQTTPacket.received]
  have htwo : (BigEndian.toBytes 2 (A.toB (.str topic)).length).length = 2 :=
    BigEndian.length_toBytes _ _
  rw [hbody]
  refine ⟨?_, ?_, ?_, ?_⟩
  · rw [topicLength, slice, List.drop_zero, List.take_left' htwo,
      BigEndian.ofBytes_toBytes (by omega)]
  · exact AppPacket.slice_append htwo rfl
  · rw [← List.append_assoc]
    exact AppPacket.slice_append (by rw [List.length_append, htwo]) hid
  · rw [← List.append_assoc, ← List.append_assoc]
    exact List.drop_left' (by simp [hid]; omega)

theorem publishPacket_received (A : Aio KP) (topic : String) (payload : PyMsg) (packetId : Bytes)
    (dup : Bool) :
    (publishPacket A topic payload packetId dup).received.type = .publish ∧
      (publishPacket A topic payload packetId dup).received.flags >>> 1 &&& 0x03 = 1 ∧
      ((publishPacket A topic payload packetId dup).received.flags &&& 0x08 ≠ 0 ↔ dup = true) := by
  cases dup <;> simp [publishPacket, MQTTPacket.received]

theorem parsed_publishPacket (hA : A.Lawful) (hascii : A.isAscii topic = true)
    (hlen : (A.toB (.str topic)).length ≤ 65535)
    (hid : packetId.length = 2) :
    mqttParsePublish A (publishPacket A topic payload packetId dup).received =
      .ok (some (topic, A.toB payload, some packetId)) := by
  obtain ⟨htlen, htopic, hpid, hpl⟩ :=
    received_publishPacket (A := A) payload dup hlen hid
  obtain ⟨-, hqos, -⟩ := publishPacket_received A topic payload packetId dup
  have hreq : requiredLength (publishPacket A topic payload packetId dup).received.flags
      (publishPacket A topic payload packetId dup).received.body =
        2 + (A.toB (.str topic)).length + 2 := by
    rw [requiredLength, htlen, hqos, if_neg, if_neg (by decide)]
    simp [publishPacket, MQTTPacket.received]
    omega
  rw [mqttParsePublish_long _ (by rw [htlen, htopic]; exact hA.toS_toB hascii), hreq, hpl, htlen,
    hpid, hqos]
  · rfl
  · rw [hreq]
    simp [publishPacket, MQTTPacket.received, hid]
    omega

theorem mqttParsePublish_cuts {packet : MQTTPacket}
    (hlen : requiredLength packet.flags packet.body ≤ packet.body.length)
    (hutf : A.toS (slice 2 (topicLength packet.body) packet.body) = .ok topic) :
    ∃ id payload, mqttParsePublish A packet = .ok (some (topic, payload, id)) ∧
      (slice 2 (topicLength packet.body) packet.body).length = topicLength packet.body ∧
      (packet.flags >>> 1 &&& 0x03 = 0 ∧ id = none ∨
        packet.flags >>> 1 &&& 0x03 ≠ 0 ∧ ∃ b, id = some b ∧ b.length = 2) ∧
      packet.body.take 2 ++ slice 2 (topicLength packet.body) packet.body ++ id.getD [] ++
        payload = packet.body := by
  have htwo : ¬ packet.body.length < 2 :=
    not_lt.mpr (le_trans two_le_requiredLength hlen)
  have hreq : requiredLength packet.flags packet.body = 2 + topicLength packet.body +
      if packet.flags >>> 1 &&& 0x03 = 0 then 0 else 2 := by rw [requiredLength, if_neg htwo]
  refine ⟨_, _, mqttParsePublish_long hlen hutf, ?_, ?_, ?_⟩
  · apply AppPacket.length_slice
    rw [hreq] at hlen
    omega
  · by_cases hqos : packet.flags >>> 1 &&& 0x03 = 0
    · exact Or.inl ⟨hqos, if_pos hqos⟩
    · refine Or.inr ⟨hqos, _, if_neg hqos, ?_⟩
      apply AppPacket.length_slice
      rw [hreq, if_neg hqos] at hlen
      exact hlen
  · rw [hreq]
    exact body_eq_append packet.body packet.flags

/-- A PUBLISH built for an ASCII topic is parsed back to what it was built from, and whatever the
flags and the body, the parser refuses exactly the bodies too short for their fields and cuts the
others apart. -/
theorem publish_codec (A : Aio KP) (hA : A.Lawful) :
    (∀ (topic : String) (payload : PyMsg) (packetId : Bytes) (dup : Bool),
      A.isAscii topic = true → (A.toB (.str topic)).length ≤ 65535 → packetId.length = 2 →
      2 + (A.toB (.str topic)).length + 2 + (A.toB payload).length ≤ 268435455 →
      ∃ raw pkt, buildPublish A topic payload packetId dup = .ok raw ∧
        mqttParsePacket raw = .ok pkt ∧ pkt.type = .publish ∧ pkt.flags >>> 1 &&& 0x03 = 1 ∧
        (pkt.flags &&& 0x08 ≠ 0 ↔ dup = true) ∧
        mqttParsePublish A pkt = .ok (some (topic, A.toB payload, some packetId))) ∧
    ∀ (packet : MQTTPacket),
      (2 + topicLength packet.body ≤ packet.body.length →
        ∃ topic, A.toS (slice 2 (topicLength packet.body) packet.body) = .ok topic) →
      (mqttParsePublish A packet = .ok none ↔
        packet.body.length < requiredLength packet.flags packet.body) ∧
      (requiredLength packet.flags packet.body ≤ packet.body.length →
        ∃ topic id payload, mqttParsePublish A packet = .ok (some (topic, payload, id)) ∧
          A.toS (slice 2 (topicLength packet.body) packet.body) = .ok topic ∧
          (slice 2 (topicLength packet.body) packet.body).length = topicLength packet.body ∧
          (packet.flags >>> 1 &&& 0x03 = 0 ∧ id = none ∨
            packet.flags >>> 1 &&& 0x03 ≠ 0 ∧ ∃ b, id = some b ∧ b.length = 2) ∧
          packet.body.take 2 ++ slice 2 (topicLength packet.body) packet.body ++ id.getD [] ++
            payload = packet.body) := by
  constructor
  · intro topic payload packetId dup hascii hlen hid hrem
    obtain ⟨htype, hqos, hdup⟩ := publishPacket_received A topic payload packetId dup
    refine ⟨_, _, buildPublish_eq hlen, (spells_build ?_).1, htype, hqos, hdup,
      parsed_publishPacket hA hascii hlen hid⟩
    simp only [publishPacket, List.length_append, BigEndian.length_toBytes, hid]
    exact hrem
  · intro packet hutf
    have hcuts : requiredLength packet.flags packet.body ≤ packet.body.length →
        ∃ topic, A.toS (slice 2 (topicLength packet.body) packet.body) = .ok topic := by
      intro hlen
      apply hutf
      rw [requiredLength] at hlen
      split_ifs at hlen <;> omega
    refine ⟨⟨?_, fun hlt => mqttParsePublish_short hlt hutf⟩, ?_⟩
    · intro hnone
      by_contra hge
      obtain ⟨topic, htext⟩ := hcuts (not_lt.mp hge)
      obtain ⟨id, payload, hsome, -⟩ := mqttParsePublish_cuts (not_lt.mp hge) htext
      cases hnone.symm.trans hsome
    · intro hlen
      obtain ⟨topic, htext⟩ := hcuts hlen
      obtain ⟨id, payload, hsome, hrest⟩ := mqttParsePublish_cuts hlen htext
      exact ⟨topic, id, payload, hsome, htext, hrest⟩

/-- A topic of two letters with the DUP bit, and a body that announces a longer topic than it
has. -/
theorem publish_codec_concrete :
    (∃ raw pkt, buildPublish concrete "ab" (.bytes [0x68, 0x69]) [0x00, 0x07] true = .ok raw ∧
      mqttParsePacket raw = .ok pkt ∧ pkt.type = .publish ∧ pkt.flags >>> 1 &&& 0x03 = 1 ∧
      (pkt.flags &&& 0x08 ≠ 0 ↔ true = true) ∧
      mqttParsePublish concrete pkt = .ok (some ("ab", [0x68, 0x69], some [0x00, 0x07]))) ∧
    mqttParsePublish concrete { type := .publish, flags := 2, body := [0x00, 0x05, 0x61] } =
      .ok none := by
  obtain ⟨hround, hparse⟩ := publish_codec concrete concrete_lawful
  constructor
  · exact hround "ab" (.bytes [0x68, 0x69]) [0x00, 0x07] true (by decide +kernel)
      (by decide +kernel) rfl
      (by decide +kernel)
  · apply (hparse { type := .publish, flags := 2, body := [0x00, 0x05, 0x61] } _).1.mpr
    · decide
    · intro hlen
      exact absurd hlen (by decide)

end Sidewire
