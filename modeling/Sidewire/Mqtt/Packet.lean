import Sidewire.Lib.Framing
import Sidewire.Mqtt.Defs

/-! # MQTT control packets

The fixed header, the variable-length integer and the packet parser. Packets
are self-delimiting: a parsed packet is spelled by exactly the bytes it was cut
from, and what follows them makes no difference.
-/

namespace Sidewire

inductive MQTTEnum
  | connect
  | connack
  | publish
  | puback
  | pubrec
  | pubrel
  | pubcomp
  | subscribe
  | suback
  | unsubscribe
  | unsuback
  | pingreq
  | pingresp
  | disconnect
  deriving DecidableEq, Repr

namespace MQTTEnum

def value : MQTTEnum → ℕ
  | connect => 1
  | connack => 2
  | publish => 3
  | puback => 4
  | pubrec => 5
  | pubrel => 6
  | pubcomp => 7
  | subscribe => 8
  | suback => 9
  | unsubscribe => 10
  | unsuback => 11
  | pingreq => 12
  | pingresp => 13
  | disconnect => 14

/-- The constructor call `MQTTEnum(n)`. -/
def ofValue : ℕ → Except PyExc MQTTEnum
  | 1 => .ok connect
  | 2 => .ok connack
  | 3 => .ok publish
  | 4 => .ok puback
  | 5 => .ok pubrec
  | 6 => .ok pubrel
  | 7 => .ok pubcomp
  | 8 => .ok subscribe
  | 9 => .ok suback
  | 10 => .ok unsubscribe
  | 11 => .ok unsuback
  | 12 => .ok pingreq
  | 13 => .ok pingresp
  | 14 => .ok disconnect
  | n => .error (.valueError s!"{n} is not a valid MQTTEnum")

@[simp] theorem ofValue_value (t : MQTTEnum) : ofValue t.value = .ok t := by
  cases t <;> rfl

theorem value_le (t : MQTTEnum) : t.value ≤ 14 := by
  cases t <;> simp [value]

end MQTTEnum

structure MQTTPacket where
  type : MQTTEnum
  flags : ℕ
  variableHeader : Bytes := []
  payload : Bytes := []
  body : Bytes := []
  deriving DecidableEq, Repr

def mqttEncodeVarint (value : ℕ) : Bytes :=
  let byte := value % 128
  if value / 128 > 0 then UInt8.ofNat (byte ||| 0x80) :: mqttEncodeVarint (value / 128)
  else [UInt8.ofNat byte]
termination_by value
decreasing_by omega

/-- The rounds of `mqtt_decode_varint` that are left, from the `i`-th byte on. -/
def mqttDecodeVarint.rounds (buf : Bytes) (offset : ℕ) :
    ℕ → ℕ → ℕ → ℕ → Except PyExc (ℕ × ℕ)
  | 0, _, _, _ => .error (.valueError "malformed varint")
  | n + 1, i, multiplier, value =>
    match buf[offset + i]? with
    | none => .error (.valueError "buffer too short")
    | some byte =>
      let value := value + (byte.toNat &&& 0x7F) * multiplier
      if byte.toNat &&& 0x80 = 0 then .ok (value, i + 1)
      else rounds buf offset n (i + 1) (multiplier * 128) value

def mqttDecodeVarint (buf : Bytes) (offset : ℕ) : Except PyExc (ℕ × ℕ) :=
  mqttDecodeVarint.rounds buf offset 4 0 1 0

def mqttBuildHeader (remainingLength : ℕ) (packetType : MQTTEnum) (flags : ℕ) : Bytes :=
  let packetTypePart := packetType.value <<< 4
  let flagsPart := flags &&& 0x0F
  let firstByte := packetTypePart ||| flagsPart
  [UInt8.ofNat firstByte] ++ mqttEncodeVarint remainingLength

def MQTTPacket.build (pkt : MQTTPacket) : Bytes :=
  let body := pkt.variableHeader ++ pkt.payload
  mqttBuildHeader body.length pkt.type pkt.flags ++ body

def mqttParsePacket (raw : Bytes) : Except PyExc MQTTPacket :=
  match raw[0]? with
  | none => .error .indexError
  | some firstByte => do
    let packetType := firstByte.toNat >>> 4
    let flags := firstByte.toNat &&& 0x0F
    let (remainingLength, consumed) ← mqttDecodeVarint raw 1
    let body := (raw.drop (1 + consumed)).take remainingLength
    let type ← MQTTEnum.ofValue packetType
    return { type, flags, body }

/-- What the receiver of a built packet makes of it: four flag bits, and the body unparsed. -/
def MQTTPacket.received (pkt : MQTTPacket) : MQTTPacket where
  type := pkt.type
  flags := pkt.flags &&& 0x0F
  body := pkt.variableHeader ++ pkt.payload

section Varint

variable {buf buf' rest : Bytes} {offset n i m v w k : ℕ} {byte : UInt8}

open mqttDecodeVarint

theorem and_0x7F (n : ℕ) : n &&& 0x7F = n % 128 := Nat.and_two_pow_sub_one_eq_mod n 7

theorem and_0x80_eq_zero_iff {n : ℕ} (h : n < 256) : n &&& 0x80 = 0 ↔ n < 128 := by
  have key : ∀ m : Fin 256, m.val &&& 0x80 = 0 ↔ m.val < 128 := by decide +kernel
  exact key ⟨n, h⟩

theorem or_0x80 {n : ℕ} (h : n < 128) : n ||| 0x80 = n + 128 := by
  have key : ∀ m : Fin 128, m.val ||| 0x80 = m.val + 128 := by decide +kernel
  exact key ⟨n, h⟩

theorem rounds_short (h : buf[offset + i]? = none) :
    rounds buf offset (n + 1) i m v = .error (.valueError "buffer too short") := by
  rw [rounds, h]

theorem rounds_last (h : buf[offset + i]? = some byte) (hb : byte.toNat < 128) :
    rounds buf offset (n + 1) i m v = .ok (v + byte.toNat * m, i + 1) := by
  rw [rounds, h]
  simp only [and_0x7F, and_0x80_eq_zero_iff byte.toNat_lt, hb, if_true, Nat.mod_eq_of_lt hb]

theorem rounds_continued (h : buf[offset + i]? = some byte) (hb : ¬ byte.toNat < 128) :
    rounds buf offset (n + 1) i m v =
      rounds buf offset n (i + 1) (m * 128) (v + byte.toNat % 128 * m) := by
  rw [rounds, h]
  simp only [and_0x7F, and_0x80_eq_zero_iff byte.toNat_lt, hb, if_false]

theorem rounds_succ_eq_ok (h : rounds buf offset (n + 1) i m v = .ok (w, k)) :
    ∃ byte, buf[offset + i]? = some byte ∧
      (byte.toNat < 128 ∧ w = v + byte.toNat * m ∧ k = i + 1 ∨ ¬ byte.toNat < 128 ∧
        rounds buf offset n (i + 1) (m * 128) (v + byte.toNat % 128 * m) = .ok (w, k)) := by
  cases hbyte : buf[offset + i]? with
  | none =>
    rw [rounds_short hbyte] at h
    cases h
  | some byte =>
    refine ⟨byte, rfl, ?_⟩
    by_cases hb : byte.toNat < 128
    · rw [rounds_last hbyte hb] at h
      cases h
      exact Or.inl ⟨hb, rfl, rfl⟩
    · rw [rounds_continued hbyte hb] at h
      exact Or.inr ⟨hb, h⟩

theorem rounds_succ_eq_malformed
    (h : rounds buf offset (n + 1) i m v = .error (.valueError "malformed varint")) :
    ∃ byte, buf[offset + i]? = some byte ∧ ¬ byte.toNat < 128 ∧
      rounds buf offset n (i + 1) (m * 128) (v + byte.toNat % 128 * m) =
        .error (.valueError "malformed varint") := by
  cases hbyte : buf[offset + i]? with
  | none =>
    rw [rounds_short hbyte] at h
    simp at h
  | some byte =>
    by_cases hb : byte.toNat < 128
    · rw [rounds_last hbyte hb] at h
      cases h
    · rw [rounds_continued hbyte hb] at h
      exact ⟨byte, rfl, hb, h⟩

theorem rounds_eq_ok_bounds (h : rounds buf offset n i m v = .ok (w, k)) :
    i < k ∧ k ≤ i + n ∧ offset + k ≤ buf.length := by
  induction n generalizing i m v with
  | zero => cases h
  | succ n ih =>
    obtain ⟨byte, hbyte, ⟨-, -, rfl⟩ | ⟨-, h⟩⟩ := rounds_succ_eq_ok h
    · have hlt : offset + i < buf.length := (List.getElem?_eq_some_iff.mp hbyte).1
      omega
    · have := ih h
      omega

theorem rounds_eq_ok_congr (h : rounds buf offset n i m v = .ok (w, k))
    (hbuf : ∀ j < offset + k, buf'[j]? = buf[j]?) :
    rounds buf' offset n i m v = .ok (w, k) := by
  induction n generalizing i m v with
  | zero => cases h
  | succ n ih =>
    have hk := rounds_eq_ok_bounds h
    have hat := hbuf (offset + i) (by omega)
    obtain ⟨byte, hbyte, ⟨hb, rfl, rfl⟩ | ⟨hb, h⟩⟩ := rounds_succ_eq_ok h
    · exact rounds_last (hat.trans hbyte) hb
    · rw [rounds_continued (hat.trans hbyte) hb]
      exact ih h

theorem rounds_eq_malformed_congr
    (h : rounds buf offset n i m v = .error (.valueError "malformed varint"))
    (hbuf : ∀ j < offset + i + n, buf'[j]? = buf[j]?) :
    rounds buf' offset n i m v = .error (.valueError "malformed varint") := by
  induction n generalizing i m v with
  | zero => exact h
  | succ n ih =>
    have hat := hbuf (offset + i) (by omega)
    obtain ⟨byte, hbyte, hb, h⟩ := rounds_succ_eq_malformed h
    rw [rounds_continued (hat.trans hbyte) hb]
    exact ih h fun j hj => hbuf j (by omega)

theorem rounds_eq_malformed_length
    (h : rounds buf offset n i m v = .error (.valueError "malformed varint")) (hn : 0 < n) :
    offset + i + n ≤ buf.length := by
  induction n generalizing i m v with
  | zero => omega
  | succ n ih =>
    obtain ⟨byte, hbyte, -, h⟩ := rounds_succ_eq_malformed h
    have hlt : offset + i < buf.length := (List.getElem?_eq_some_iff.mp hbyte).1
    rcases Nat.eq_zero_or_pos n with rfl | hn
    · omega
    · have := ih h hn
      omega

theorem rounds_append_zero (h : rounds buf offset n i m v = .error (.valueError "buffer too short"))
    (hi : offset + i ≤ buf.length) :
    ∃ w, rounds (buf ++ [0]) offset n i m v = .ok (w, buf.length - offset + 1) := by
  induction n generalizing i m v with
  | zero => simp [rounds] at h
  | succ n ih =>
    cases hbyte : buf[offset + i]? with
    | none =>
      have hlen : offset + i = buf.length :=
        le_antisymm hi (List.getElem?_eq_none_iff.mp hbyte)
      have hat : (buf ++ [0])[offset + i]? = some 0 := by simp [hlen]
      rw [rounds_last hat (by decide)]
      exact ⟨_, by simp only [Except.ok.injEq, Prod.mk.injEq]; exact ⟨rfl, by omega⟩⟩
    | some byte =>
      have hlt : offset + i < buf.length := (List.getElem?_eq_some_iff.mp hbyte).1
      have hat : (buf ++ [0])[offset + i]? = some byte := by
        rw [List.getElem?_append_left hlt, hbyte]
      by_cases hb : byte.toNat < 128
      · rw [rounds_last hbyte hb] at h
        cases h
      · rw [rounds_continued hbyte hb] at h
        rw [rounds_continued hat hb]
        exact ih h (by omega)

theorem rounds_eq_error (h : rounds buf offset n i m v = .error e) :
    e = .valueError "buffer too short" ∨ e = .valueError "malformed varint" := by
  induction n generalizing i m v with
  | zero =>
    simp only [rounds, Except.error.injEq] at h
    exact Or.inr h.symm
  | succ n ih =>
    cases hbyte : buf[offset + i]? with
    | none =>
      rw [rounds_short hbyte, Except.error.injEq] at h
      exact Or.inl h.symm
    | some byte =>
      by_cases hb : byte.toNat < 128
      · rw [rounds_last hbyte hb] at h
        cases h
      · rw [rounds_continued hbyte hb] at h
        exact ih h

theorem mqttEncodeVarint_of_lt (h : n < 128) : mqttEncodeVarint n = [UInt8.ofNat n] := by
  rw [mqttEncodeVarint]
  simp only [Nat.div_eq_of_lt h, lt_irrefl, if_false, Nat.mod_eq_of_lt h]

theorem mqttEncodeVarint_of_le (h : 128 ≤ n) :
    mqttEncodeVarint n = UInt8.ofNat (n % 128 + 128) :: mqttEncodeVarint (n / 128) := by
  rw [mqttEncodeVarint]
  have hdiv : n / 128 > 0 := Nat.div_pos h (by omega)
  simp only [hdiv, if_true, or_0x80 (Nat.mod_lt n (by omega : 128 > 0))]

theorem rounds_mqttEncodeVarint (hw : w < 128 ^ (n + 1))
    (h : buf.drop (offset + i) = mqttEncodeVarint w ++ rest) :
    rounds buf offset (n + 1) i m v = .ok (v + w * m, i + (mqttEncodeVarint w).length) := by
  have hhead : buf[offset + i]? = (mqttEncodeVarint w ++ rest)[0]? := by
    rw [← h, List.getElem?_drop, Nat.add_zero]
  induction n generalizing i m v w with
  | zero =>
    have hlt : w < 128 := by simpa using hw
    rw [mqttEncodeVarint_of_lt hlt] at hhead ⊢
    have hbyte : (UInt8.ofNat w).toNat = w := by simp; omega
    rw [rounds_last hhead (by omega), hbyte]
    rfl
  | succ n ih =>
    by_cases hlt : w < 128
    · rw [mqttEncodeVarint_of_lt hlt] at hhead ⊢
      have hbyte : (UInt8.ofNat w).toNat = w := by simp; omega
      rw [rounds_last hhead (by omega), hbyte]
      rfl
    · rw [mqttEncodeVarint_of_le (not_lt.mp hlt)] at h hhead ⊢
      have hbyte : (UInt8.ofNat (w % 128 + 128)).toNat = w % 128 + 128 := by simp; omega
      have hdrop : buf.drop (offset + (i + 1)) = mqttEncodeVarint (w / 128) ++ rest := by
        rw [← Nat.add_assoc, ← List.tail_drop, h]
        rfl
      have hdiv : w / 128 < 128 ^ (n + 1) := by
        rw [pow_succ] at hw
        exact Nat.div_lt_of_lt_mul (by rw [Nat.mul_comm]; exact hw)
      rw [rounds_continued hhead (by omega), hbyte,
        ih hdiv hdrop (by rw [← hdrop, List.getElem?_drop]; rfl)]
      have hval : v + (w % 128 + 128) % 128 * m + w / 128 * (m * 128) = v + w * m := by
        have hmod : (w % 128 + 128) % 128 = w % 128 := by omega
        calc v + (w % 128 + 128) % 128 * m + w / 128 * (m * 128)
            = v + (w % 128 + 128 * (w / 128)) * m := by rw [hmod]; ring
          _ = v + w * m := by rw [Nat.mod_add_div]
      rw [hval, List.length_cons]
      congr 2
      omega

theorem mqttDecodeVarint_mqttEncodeVarint (hw : w ≤ 268435455)
    (h : buf.drop offset = mqttEncodeVarint w ++ rest) :
    mqttDecodeVarint buf offset = .ok (w, (mqttEncodeVarint w).length) := by
  have hlt : w < 128 ^ (3 + 1) := by omega
  rw [mqttDecodeVarint, rounds_mqttEncodeVarint hlt (by simpa using h)]
  simp

end Varint

section Spelling

variable {pkt pkt' : MQTTPacket} {x y b rest : Bytes}

/-- The bytes are exactly one packet: header, length and as many bytes as it says. -/
def Spells (pkt : MQTTPacket) (x : Bytes) : Prop :=
  mqttParsePacket x = .ok pkt ∧
    ∃ remLen consumed, mqttDecodeVarint x 1 = .ok (remLen, consumed) ∧
      x.length = 1 + consumed + remLen

theorem getElem?_append_of_lt {j : ℕ} (h : j < x.length) (rest : Bytes) :
    (x ++ rest)[j]? = x[j]? := List.getElem?_append_left h

theorem mqttDecodeVarint_append {v k : ℕ} (h : mqttDecodeVarint x 1 = .ok (v, k)) (rest : Bytes) :
    mqttDecodeVarint (x ++ rest) 1 = .ok (v, k) := by
  have hk := rounds_eq_ok_bounds h
  apply rounds_eq_ok_congr h
  intro j hj
  exact getElem?_append_of_lt (by omega) rest

theorem Spells.length_eq (hx : Spells pkt x) (hy : Spells pkt' y) (h : x ++ b = y ++ rest) :
    x.length = y.length := by
  obtain ⟨-, v, k, hv, hlen⟩ := hx
  obtain ⟨-, w, l, hw, hlen'⟩ := hy
  have hd := mqttDecodeVarint_append hv b
  rw [h, mqttDecodeVarint_append hw rest] at hd
  simp only [Except.ok.injEq, Prod.mk.injEq] at hd
  omega

def framing : Framing MQTTPacket UInt8 where
  Spells := Spells
  ne_nil := by
    rintro pkt _ ⟨hx, -⟩ rfl
    cases hx
  prefix_free := by
    intro pkt pkt' x y b rest hx hy h
    obtain ⟨rfl, rfl⟩ := List.append_inj h (hx.length_eq hy h)
    exact ⟨Except.ok.inj (hx.1.symm.trans hy.1), rfl⟩

theorem firstByte_split (t : MQTTEnum) (flags : ℕ) :
    (UInt8.ofNat (t.value <<< 4 ||| flags &&& 0x0F)).toNat >>> 4 = t.value ∧
      (UInt8.ofNat (t.value <<< 4 ||| flags &&& 0x0F)).toNat &&& 0x0F = flags &&& 0x0F := by
  have hflags : flags &&& 0x0F = flags % 16 := Nat.and_two_pow_sub_one_eq_mod flags 4
  have hlt : flags % 16 < 16 := Nat.mod_lt _ (by omega)
  have key : ∀ u : Fin 15, ∀ f : Fin 16,
      (UInt8.ofNat (u.val <<< 4 ||| f.val)).toNat >>> 4 = u.val ∧
        (UInt8.ofNat (u.val <<< 4 ||| f.val)).toNat &&& 0x0F = f.val := by decide +kernel
  rw [hflags]
  exact key ⟨t.value, Nat.lt_succ_of_le t.value_le⟩ ⟨flags % 16, hlt⟩

theorem mqttParsePacket_eq {raw : Bytes} {firstByte : UInt8} {n k : ℕ}
    (h : raw[0]? = some firstByte) (hd : mqttDecodeVarint raw 1 = .ok (n, k)) :
    mqttParsePacket raw = (MQTTEnum.ofValue (firstByte.toNat >>> 4)).map fun type =>
      { type, flags := firstByte.toNat &&& 0x0F, body := (raw.drop (1 + k)).take n } := by
  simp only [mqttParsePacket, h, hd]
  cases MQTTEnum.ofValue (firstByte.toNat >>> 4) <;> rfl

theorem mqttDecodeVarint_build (h : (pkt.variableHeader ++ pkt.payload).length ≤ 268435455) :
    mqttDecodeVarint pkt.build 1 = .ok ((pkt.variableHeader ++ pkt.payload).length,
      (mqttEncodeVarint (pkt.variableHeader ++ pkt.payload).length).length) := by
  have hdrop : pkt.build.drop 1 = mqttEncodeVarint (pkt.variableHeader ++ pkt.payload).length ++
      (pkt.variableHeader ++ pkt.payload) := rfl
  exact mqttDecodeVarint_mqttEncodeVarint h hdrop

theorem drop_build : pkt.build.drop
    (1 + (mqttEncodeVarint (pkt.variableHeader ++ pkt.payload).length).length) =
      pkt.variableHeader ++ pkt.payload := by
  apply List.drop_left'
  simp only [mqttBuildHeader, List.length_append, List.length_singleton]

theorem spells_build (h : (pkt.variableHeader ++ pkt.payload).length ≤ 268435455) :
    Spells pkt.received pkt.build := by
  obtain ⟨htype, hflags⟩ := firstByte_split pkt.type pkt.flags
  have hfirst : pkt.build[0]? =
      some (UInt8.ofNat (pkt.type.value <<< 4 ||| pkt.flags &&& 0x0F)) := rfl
  constructor
  · rw [mqttParsePacket_eq hfirst (mqttDecodeVarint_build h), drop_build, List.take_length, htype,
      hflags, MQTTEnum.ofValue_value]
    rfl
  · exact ⟨_, _, mqttDecodeVarint_build h, by simp [MQTTPacket.build, mqttBuildHeader]; omega⟩

end Spelling

end Sidewire
