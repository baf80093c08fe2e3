import Sidewire.Lib.Fallible
import Sidewire.Mqtt.PacketIds
import Sidewire.Mqtt.Reader

/-! # Everything a client writes

A client writes a CONNECT, its SUBSCRIBE, publications, PUBACKs, pings and a
DISCONNECT to one stream. Each is a packet, and from the stream the reader at
the other end cuts these packets and no others; what the client wrote can be
told from it in one way only.
-/

namespace Sidewire

variable {KP : Type} (A : Aio KP)

def buildConnect (clientId : String) (keepAlive : ℤ) : Except PyExc Bytes := do
  let proto ← mqttEncStr A "MQTT"
  let keepAlive ← structPack 2 keepAlive
  let vh := proto ++ [0x04] ++ [0x02] ++ keepAlive
  let pl ← mqttEncStr A clientId
  return [0x10] ++ mqttEncodeVarint (vh.length + pl.length) ++ vh ++ pl

def buildPuback (packetId : Bytes) : Bytes := [0x40, 0x02] ++ packetId

def buildDisconnect : Bytes := [0xE0, 0x00]

/-- `build_ping` at the time it reads. -/
def buildPing (lastPing keepAlive now : ℚ) : ℚ × Option Bytes :=
  if keepAlive ≤ now - lastPing then (now, some (MQTTPacket.build { type := .pingreq, flags := 0 }))
  else (lastPing, none)

inductive Written
  | connect (clientId : String) (keepAlive : ℤ)
  | subscribe (topic : String) (packetId : Bytes)
  | publish (topic : String) (payload packetId : Bytes) (dup : Bool)
  | puback (packetId : Bytes)
  | pingreq
  | disconnect
  deriving DecidableEq

namespace Written

def build : Written → Except PyExc Bytes
  | connect clientId keepAlive => buildConnect A clientId keepAlive
  | subscribe topic packetId => buildSubscribe A topic packetId
  | publish topic payload packetId dup => buildPublish A topic (.bytes payload) packetId dup
  | puback packetId => return buildPuback packetId
  | pingreq => return MQTTPacket.build { type := .pingreq, flags := 0 }
  | disconnect => return buildDisconnect

def field (s : String) : Bytes := BigEndian.toBytes 2 (A.toB (.str s)).length ++ A.toB (.str s)

def packet : Written → MQTTPacket
  | connect clientId keepAlive =>
    { type := .connect, flags := 0
      variableHeader := field A "MQTT" ++ [0x04] ++ [0x02] ++ BigEndian.toBytes 2 keepAlive.toNat
      payload := field A clientId }
  | subscribe topic packetId =>
    { type := .subscribe, flags := 2, variableHeader := packetId, payload := field A topic ++ [0x01] }
  | publish topic payload packetId dup => publishPacket A topic (.bytes payload) packetId dup
  | puback packetId => { type := .puback, flags := 0, variableHeader := packetId }
  | pingreq => { type := .pingreq, flags := 0 }
  | disconnect => { type := .disconnect, flags := 0 }

/-- The packet ids are of two bytes, as `get_packet_id` makes them and a PUBLISH carries them. -/
def PacketIds : Written → Prop
  | subscribe _ packetId | publish _ _ packetId _ | puback packetId => packetId.length = 2
  | _ => True

/-- The client id and the topic are ASCII text, which `to_b` keeps. -/
def Ascii : Written → Prop
  | connect s _ | subscribe s _ | publish s _ _ _ => A.isAscii s = true
  | _ => True

/-- The packet is no longer than its length field can say, and its strings reach the bytes. -/
def Fits (w : Written) : Prop :=
  w.PacketIds ∧ w.Ascii A ∧ ((w.packet A).variableHeader ++ (w.packet A).payload).length ≤ 268435455

instance (w : Written) : Decidable w.PacketIds := by
  cases w <;> unfold PacketIds <;> infer_instance

instance (w : Written) : Decidable (w.Ascii A) := by
  cases w <;> unfold Ascii <;> infer_instance

instance (w : Written) : Decidable (w.Fits A) := inferInstanceAs (Decidable (_ ∧ _ ∧ _))

variable {A} {w w' : Written} {ws ws' : List Written} {b : Bytes} {bs bs' : List Bytes} {s s' : String}

theorem mqttEncStr_eq_ok (h : mqttEncStr A s = .ok b) :
    b = field A s ∧ (A.toB (.str s)).length ≤ 65535 := by
  obtain ⟨len, hp, hb⟩ := Fallible.bind_eq_ok.mp h
  obtain ⟨-, hlt, rfl⟩ := AppPacket.structPack_eq_ok hp
  norm_num at hlt
  refine ⟨(Except.ok.inj hb).symm.trans ?_, by omega⟩
  rw [Int.toNat_natCast, field]

theorem buildConnect_eq_ok {clientId : String} {keepAlive : ℤ}
    (h : buildConnect A clientId keepAlive = .ok b) :
    b = (packet A (connect clientId keepAlive)).build ∧ 0 ≤ keepAlive ∧ keepAlive < 256 ^ 2 ∧
      (A.toB (.str clientId)).length ≤ 65535 := by
  obtain ⟨proto, hproto, h⟩ := Fallible.bind_eq_ok.mp h
  obtain ⟨ka, hka, h⟩ := Fallible.bind_eq_ok.mp h
  obtain ⟨pl, hpl, h⟩ := Fallible.bind_eq_ok.mp h
  obtain ⟨rfl, -⟩ := mqttEncStr_eq_ok hproto
  obtain ⟨hle, hlt, rfl⟩ := AppPacket.structPack_eq_ok hka
  obtain ⟨rfl, hlen⟩ := mqttEncStr_eq_ok hpl
  refine ⟨(Except.ok.inj h).symm.trans ?_, hle, hlt, hlen⟩
  simp only [packet, MQTTPacket.build, mqttBuildHeader, MQTTEnum.value, List.length_append,
    List.append_assoc, Nat.add_assoc]
  rfl

theorem buildSubscribe_eq_ok {topic : String} {packetId : Bytes}
    (h : buildSubscribe A topic packetId = .ok b) :
    b = (packet A (subscribe topic packetId)).build ∧ (A.toB (.str topic)).length ≤ 65535 := by
  obtain ⟨t, ht, h⟩ := Fallible.bind_eq_ok.mp h
  obtain ⟨rfl, hlen⟩ := mqttEncStr_eq_ok ht
  refine ⟨(Except.ok.inj h).symm.trans ?_, hlen⟩
  simp only [packet, MQTTPacket.build, mqttBuildHeader, MQTTEnum.value, List.length_append,
    List.append_assoc]
  rfl

theorem buildPublish_eq_ok {topic : String} {payload : PyMsg} {packetId : Bytes} {dup : Bool}
    (h : buildPublish A topic payload packetId dup = .ok b) :
    b = (publishPacket A topic payload packetId dup).build ∧
      (A.toB (.str topic)).length ≤ 65535 := by
  obtain ⟨t, ht, -⟩ := Fallible.bind_eq_ok.mp h
  obtain ⟨-, hlen⟩ := mqttEncStr_eq_ok ht
  rw [buildPublish_eq hlen] at h
  exact ⟨(Except.ok.inj h).symm, hlen⟩

theorem spells_puback {packetId : Bytes} (h : packetId.length = 2) :
    buildPuback packetId = (packet A (puback packetId)).build := by
  simp [buildPuback, packet, MQTTPacket.build, mqttBuildHeader, MQTTEnum.value, h,
    mqttEncodeVarint_of_lt]

theorem buildPing_eq_some (lastPing keepAlive now : ℚ) :
    (buildPing lastPing keepAlive now).2 = some b ↔
      keepAlive ≤ now - lastPing ∧ build A pingreq = .ok b := by
  unfold buildPing
  split_ifs with h
  · simp only [Option.some.injEq, h, true_and, build]
    exact ⟨fun hb => congrArg Except.ok hb, fun hb => Except.ok.inj hb⟩
  · simp [h]

theorem build_eq_ok (h : w.build A = .ok b) (hw : w.PacketIds) : b = (w.packet A).build := by
  cases w with
  | connect => exact (buildConnect_eq_ok h).1
  | subscribe => exact (buildSubscribe_eq_ok h).1
  | publish => exact (buildPublish_eq_ok h).1
  | puback =>
    cases h
    exact spells_puback hw
  | pingreq =>
    cases h
    rfl
  | disconnect =>
    cases h
    simp [buildDisconnect, packet, MQTTPacket.build, mqttBuildHeader, MQTTEnum.value,
      mqttEncodeVarint_of_lt]

theorem field_append_inj (hA : A.Lawful) (hascii : A.isAscii s = true)
    (hascii' : A.isAscii s' = true) (hs : (A.toB (.str s)).length ≤ 65535)
    (hs' : (A.toB (.str s')).length ≤ 65535) {r r' : Bytes} (h : field A s ++ r = field A s' ++ r') :
    s = s' ∧ r = r' := by
  simp only [field, List.append_assoc] at h
  obtain ⟨hlen, h⟩ := List.append_inj h (by rw [BigEndian.length_toBytes, BigEndian.length_toBytes])
  have hlen' := congrArg BigEndian.ofBytes hlen
  rw [BigEndian.ofBytes_toBytes (by norm_num; omega), BigEndian.ofBytes_toBytes (by norm_num; omega)]
    at hlen'
  obtain ⟨hb, hr⟩ := List.append_inj h hlen'
  exact ⟨hA.toB_injective hascii hascii' hb, hr⟩

theorem eq_of_received (hA : A.Lawful) {b' : Bytes} (hb : w.build A = .ok b)
    (hb' : w'.build A = .ok b') (hw : w.PacketIds) (hw' : w'.PacketIds) (ha : w.Ascii A)
    (ha' : w'.Ascii A) (h : (w.packet A).received = (w'.packet A).received) : w = w' := by
  have htype := congrArg MQTTPacket.type h
  have hbody := congrArg MQTTPacket.body h
  cases w with
  | connect clientId keepAlive =>
    cases w' <;> simp only [packet, MQTTPacket.received, publishPacket, reduceCtorEq] at htype
    rename_i clientId' keepAlive'
    obtain ⟨-, hle, hlt, hlen⟩ := buildConnect_eq_ok hb
    obtain ⟨-, hle', hlt', hlen'⟩ := buildConnect_eq_ok hb'
    simp only [packet, MQTTPacket.received, List.append_assoc, List.append_cancel_left_eq] at hbody
    obtain ⟨hka, hid⟩ := List.append_inj hbody
      (by rw [BigEndian.length_toBytes, BigEndian.length_toBytes])
    have hka' := congrArg BigEndian.ofBytes hka
    rw [BigEndian.ofBytes_toBytes (by omega), BigEndian.ofBytes_toBytes (by omega)] at hka'
    have hfield : field A clientId ++ [] = field A clientId' ++ [] := by simpa using hid
    obtain ⟨rfl, -⟩ := field_append_inj hA ha ha' hlen hlen' hfield
    obtain rfl : keepAlive = keepAlive' := by omega
    rfl
  | subscribe topic packetId =>
    cases w' <;> simp only [packet, MQTTPacket.received, publishPacket, reduceCtorEq] at htype
    obtain ⟨-, hlen⟩ := buildSubscribe_eq_ok hb
    obtain ⟨-, hlen'⟩ := buildSubscribe_eq_ok hb'
    obtain ⟨rfl, ht⟩ := List.append_inj hbody (hw.trans hw'.symm)
    obtain ⟨rfl, -⟩ := field_append_inj hA ha ha' hlen hlen' ht
    rfl
  | publish topic payload packetId dup =>
    cases w' <;> simp only [packet, MQTTPacket.received, publishPacket, reduceCtorEq] at htype
    rename_i topic' payload' packetId' dup'
    obtain ⟨-, hlen⟩ := buildPublish_eq_ok hb
    obtain ⟨-, hlen'⟩ := buildPublish_eq_ok hb'
    have hp : mqttParsePublish A (publishPacket A topic (.bytes payload) packetId dup).received =
        .ok (some (topic, A.toB (.bytes payload), some packetId)) := parsed_publishPacket hA ha hlen hw
    have hp' : mqttParsePublish A (publishPacket A topic' (.bytes payload') packetId' dup').received =
        .ok (some (topic', A.toB (.bytes payload'), some packetId')) :=
      parsed_publishPacket hA ha' hlen' hw'
    simp only [packet] at h
    rw [h, hp', Except.ok.injEq, Option.some.injEq, Prod.mk.injEq, Prod.mk.injEq,
      hA.toB_bytes, hA.toB_bytes, Option.some.injEq] at hp
    obtain ⟨rfl, rfl, rfl⟩ := hp
    obtain ⟨-, -, hdup⟩ := publishPacket_received A topic' (.bytes payload') packetId' dup
    obtain ⟨-, -, hdup'⟩ := publishPacket_received A topic' (.bytes payload') packetId' dup'
    rw [h, hdup'] at hdup
    rw [Bool.eq_iff_iff.mpr hdup]
  | puback packetId =>
    cases w' <;> simp only [packet, MQTTPacket.received, publishPacket, reduceCtorEq] at htype
    simp only [packet, MQTTPacket.received, List.append_nil] at hbody
    rw [hbody]
  | pingreq =>
    cases w' <;> simp only [packet, MQTTPacket.received, publishPacket, reduceCtorEq] at htype
    rfl
  | disconnect =>
    cases w' <;> simp only [packet, MQTTPacket.received, publishPacket, reduceCtorEq] at htype
    rfl

theorem spells_of_build (h : w.build A = .ok b) (hw : w.Fits A) : Spells (w.packet A).received b := by
  rw [build_eq_ok h hw.1]
  exact spells_build hw.2.2

theorem reads_of_build (h : List.Forall₂ (fun w b => build A w = .ok b) ws bs)
    (hws : ∀ w ∈ ws, w.Fits A) :
    framing.Reads (ws.map fun w => (w.packet A).received) bs.flatten [] := by
  induction h with
  | nil => exact .nil []
  | @cons w b ws bs hb _ ih =>
    refine .cons (spells_of_build hb (hws w (List.mem_cons_self ..))) (ih fun w hw => ?_)
    exact hws w (List.mem_cons_of_mem _ hw)

theorem eq_of_map_received (hA : A.Lawful) (h : List.Forall₂ (fun w b => build A w = .ok b) ws bs)
    (h' : List.Forall₂ (fun w b => build A w = .ok b) ws' bs') (hws : ∀ w ∈ ws, w.Fits A)
    (hws' : ∀ w ∈ ws', w.Fits A)
    (hmap : (ws.map fun w => (w.packet A).received) = ws'.map fun w => (w.packet A).received) :
    ws = ws' := by
  induction h generalizing ws' bs' with
  | nil => exact (List.map_eq_nil_iff.mp hmap.symm).symm
  | @cons w b ws bs hb _ ih =>
    cases h' with
    | nil => cases hmap
    | @cons w' b' ws' bs' hb' h' =>
      rw [List.map_cons, List.map_cons, List.cons.injEq] at hmap
      have hfits := hws w (List.mem_cons_self ..)
      have hfits' := hws' w' (List.mem_cons_self ..)
      obtain rfl := eq_of_received hA hb hb' hfits.1 hfits'.1 hfits.2.1 hfits'.2.1 hmap.1
      rw [ih h' (fun w hw => hws w (List.mem_cons_of_mem _ hw))
        (fun w hw => hws' w (List.mem_cons_of_mem _ hw)) hmap.2]

/-- Whatever a client writes, one packet after the other, a reader of the stream is handed exactly
these packets, however the stream is cut and the calls are interleaved, if and only if no call that
ends with an error strands a packet; and nothing else that a client can write makes the same
stream. -/
theorem reads_back (hA : A.Lawful) (hws : ∀ w ∈ ws, w.Fits A) (hb : ws.mapM (build A) = .ok bs) :
    (∀ wraps es t, Machine.run (Reader.step wraps) {} es = some t → Reader.fed es = bs.flatten →
      t.handling = [] → (t.dispatched = ws.map (fun w => (w.packet A).received) ∧ t.buf = [] ↔
        Machine.Meets (Reader.step wraps)
          (fun s e => s.received = bs.flatten → ¬ Reader.Strands wraps s e) {} es)) ∧
    ∀ ws' bs', (∀ w ∈ ws', w.Fits A) → ws'.mapM (build A) = .ok bs' →
      bs'.flatten = bs.flatten → ws' = ws := by
  have hreads := reads_of_build (Fallible.mapM_eq_ok_iff.mp hb) hws
  constructor
  · intro wraps es t hrun hfed hdone
    exact Reader.dispatched_all_iff hreads hrun hfed hdone
  · intro ws' bs' hws' hb' hflat
    have hreads' := reads_of_build (Fallible.mapM_eq_ok_iff.mp hb') hws'
    rw [hflat] at hreads'
    exact eq_of_map_received hA (Fallible.mapM_eq_ok_iff.mp hb') (Fallible.mapM_eq_ok_iff.mp hb)
      hws' hws (hreads'.eq_of_idle Framing.idle_nil hreads Framing.idle_nil).1

def spoken : List Written :=
  [.connect "me" 60, .subscribe "ab" [0x00, 0x01], .publish "ab" [0x68, 0x69] [0x00, 0x02] false,
    .puback [0x00, 0x07], .pingreq, .disconnect]

def spokenBytes : List Bytes :=
  [[0x10, 0x0E, 0x00, 0x04, 0x4D, 0x51, 0x54, 0x54, 0x04, 0x02, 0x00, 0x3C, 0x00, 0x02, 0x6D, 0x65],
    [0x82, 0x07, 0x00, 0x01, 0x00, 0x02, 0x61, 0x62, 0x01],
    [0x32, 0x08, 0x00, 0x02, 0x61, 0x62, 0x00, 0x02, 0x68, 0x69],
    [0x40, 0x02, 0x00, 0x07], [0xC0, 0x00], [0xE0, 0x00]]

theorem reads_back_spoken : ∃ t, Machine.run (Reader.step concrete.asyncWrapErrors) {}
    (.chunk (spokenBytes.flatten.take 20) :: .chunk (spokenBytes.flatten.drop 20) ::
      List.replicate 6 (.resume 0 (.ok ()))) = some t ∧
    t.dispatched = spoken.map (fun w => (w.packet concrete).received) ∧ t.buf = [] := by
  obtain ⟨t, hrun, hm, hdone⟩ := Machine.exists_runMeeting_of_any
    (Reader.step concrete.asyncWrapErrors)
    (fun s e => s.received = spokenBytes.flatten → ¬ Reader.Strands concrete.asyncWrapErrors s e) {}
    (.chunk (spokenBytes.flatten.take 20) :: .chunk (spokenBytes.flatten.drop 20) ::
      List.replicate 6 (.resume 0 (.ok ()))) (fun t : Reader => t.handling = []) (by decide +kernel)
  have hb : spoken.mapM (build concrete) = .ok spokenBytes := by decide +kernel
  exact ⟨t, hrun, ((reads_back concrete_lawful (by decide +kernel) hb).1 _ _ t hrun
    (by decide +kernel) (of_decide_eq_true hdone)).mpr hm⟩

end Written

end Sidewire
