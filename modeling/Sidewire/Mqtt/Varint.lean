import Sidewire.Mqtt.Packet

/-! # The length varint

The encoder divides without a bound, the decoder reads four bytes at most. Up
to 2^28 they agree and the encoding is the shortest there is; what the decoder
raises is read off the bytes that are left.
-/

namespace Sidewire

open mqttDecodeVarint

def Continued (byte : UInt8) : Prop := byte.toNat &&& 0x80 ≠ 0

section Rounds

variable {buf rest : Bytes} {offset n i m v w k : ℕ} {byte : UInt8}

theorem continued_iff : Continued byte ↔ ¬ byte.toNat < 128 := by
  rw [Continued, ne_eq, and_0x80_eq_zero_iff byte.toNat_lt]

theorem drop_eq_nil_of_getElem?_eq_none (h : buf[offset + i]? = none) :
    buf.drop (offset + i) = [] :=
  List.drop_eq_nil_of_le (List.getElem?_eq_none_iff.mp h)

theorem drop_eq_cons_of_getElem?_eq_some (h : buf[offset + i]? = some byte) :
    buf.drop (offset + i) = byte :: buf.drop (offset + (i + 1)) := by
  obtain ⟨hlt, rfl⟩ := List.getElem?_eq_some_iff.mp h
  exact List.drop_eq_getElem_cons hlt

theorem rounds_eq_short_iff :
    rounds buf offset n i m v = .error (.valueError "buffer too short") ↔
      (buf.drop (offset + i)).length < n ∧ ∀ byte ∈ buf.drop (offset + i), Continued byte := by
  induction n generalizing i m v with
  | zero => simp [rounds]
  | succ n ih =>
    cases hbyte : buf[offset + i]? with
    | none => simp [rounds_short hbyte, drop_eq_nil_of_getElem?_eq_none hbyte]
    | some byte =>
      rw [drop_eq_cons_of_getElem?_eq_some hbyte, List.forall_mem_cons, List.length_cons,
        Nat.add_lt_add_iff_right, continued_iff]
      by_cases hb : byte.toNat < 128
      · simp [rounds_last hbyte hb, hb]
      · rw [rounds_continued hbyte hb, ih]
        simp [hb]

theorem rounds_eq_malformed_iff :
    rounds buf offset n i m v = .error (.valueError "malformed varint") ↔
      n ≤ (buf.drop (offset + i)).length ∧
        ∀ byte ∈ (buf.drop (offset + i)).take n, Continued byte := by
  induction n generalizing i m v with
  | zero => simp [rounds]
  | succ n ih =>
    cases hbyte : buf[offset + i]? with
    | none => simp [rounds_short hbyte, drop_eq_nil_of_getElem?_eq_none hbyte]
    | some byte =>
      rw [drop_eq_cons_of_getElem?_eq_some hbyte, List.take_succ_cons, List.forall_mem_cons,
        List.length_cons, Nat.add_le_add_iff_right, continued_iff]
      by_cases hb : byte.toNat < 128
      · simp [rounds_last hbyte hb, hb]
      · rw [rounds_continued hbyte hb, ih]
        simp [hb]

theorem rounds_mqttEncodeVarint_of_le (hw : 128 ^ n ≤ w)
    (h : buf.drop (offset + i) = mqttEncodeVarint w ++ rest) :
    rounds buf offset n i m v = .error (.valueError "malformed varint") := by
  induction n generalizing i m v w with
  | zero => rfl
  | succ n ih =>
    rw [pow_succ] at hw
    have hpos : 0 < 128 ^ n := by positivity
    rw [mqttEncodeVarint_of_le (by omega)] at h
    have hhead : buf[offset + i]? = some (UInt8.ofNat (w % 128 + 128)) := by
      rw [← Nat.add_zero (offset + i), ← List.getElem?_drop, h]
      rfl
    have hbyte : (UInt8.ofNat (w % 128 + 128)).toNat = w % 128 + 128 := by simp; omega
    rw [rounds_continued hhead (by omega)]
    apply ih ((Nat.le_div_iff_mul_le (by omega)).mpr hw)
    rw [← Nat.add_assoc, ← List.tail_drop, h]
    rfl

theorem encoding_of_rounds_eq_ok (h : rounds buf offset n i m v = .ok (w, k)) :
    ∃ u, w = v + u * m ∧ i + (mqttEncodeVarint u).length ≤ k ∧
      (k = i + (mqttEncodeVarint u).length →
        (buf.drop (offset + i)).take (k - i) = mqttEncodeVarint u) := by
  induction n generalizing i m v with
  | zero => cases h
  | succ n ih =>
    obtain ⟨byte, hbyte, ⟨hb, rfl, rfl⟩ | ⟨hb, h⟩⟩ := rounds_succ_eq_ok h
    · have henc := mqttEncodeVarint_of_lt hb
      refine ⟨byte.toNat, rfl, by simp [henc], fun _ => ?_⟩
      simp [drop_eq_cons_of_getElem?_eq_some hbyte, henc]
    · obtain ⟨u, rfl, hle, heq⟩ := ih h
      have hk := rounds_eq_ok_bounds h
      have hlt := byte.toNat_lt
      refine ⟨byte.toNat % 128 + 128 * u, by ring, ?_⟩
      by_cases hu : u = 0
      · -- the bytes after this one add nothing, one byte would have done
        have henc : mqttEncodeVarint (byte.toNat % 128 + 128 * u) =
            [UInt8.ofNat (byte.toNat % 128 + 128 * u)] := mqttEncodeVarint_of_lt (by omega)
        rw [henc, List.length_singleton]
        exact ⟨by omega, fun hk' => by omega⟩
      · have henc := mqttEncodeVarint_of_le (n := byte.toNat % 128 + 128 * u) (by omega)
        have hdiv : (byte.toNat % 128 + 128 * u) / 128 = u := by omega
        have hmod : (byte.toNat % 128 + 128 * u) % 128 + 128 = byte.toNat := by omega
        rw [hdiv, hmod, UInt8.ofNat_toNat] at henc
        rw [henc, List.length_cons]
        refine ⟨by omega, fun hk' => ?_⟩
        obtain ⟨j, hj⟩ : ∃ j, k - i = j + 1 := ⟨k - i - 1, by omega⟩
        have htail := heq (by omega)
        have hj' : k - (i + 1) = j := by omega
        rw [drop_eq_cons_of_getElem?_eq_some hbyte, hj, List.take_succ_cons, ← htail, hj']

end Rounds

section Decoder

variable {buf pre suf : Bytes} {offset v k : ℕ}

theorem mqttDecodeVarint_eq_short_iff :
    mqttDecodeVarint buf offset = .error (.valueError "buffer too short") ↔
      (buf.drop offset).length < 4 ∧ ∀ byte ∈ buf.drop offset, Continued byte :=
  rounds_eq_short_iff

theorem mqttDecodeVarint_eq_malformed_iff :
    mqttDecodeVarint buf offset = .error (.valueError "malformed varint") ↔
      4 ≤ (buf.drop offset).length ∧ ∀ byte ∈ (buf.drop offset).take 4, Continued byte :=
  rounds_eq_malformed_iff

theorem mqttDecodeVarint_cases (buf : Bytes) (offset : ℕ) :
    (∃ v k, mqttDecodeVarint buf offset = .ok (v, k)) ∨
      mqttDecodeVarint buf offset = .error (.valueError "buffer too short") ∨
      mqttDecodeVarint buf offset = .error (.valueError "malformed varint") := by
  cases h : mqttDecodeVarint buf offset with
  | ok r => exact Or.inl ⟨r.1, r.2, rfl⟩
  | error e =>
    right
    simpa only [Except.error.injEq] using rounds_eq_error h

theorem mqttDecodeVarint_append_mqttEncodeVarint (hv : v < 2 ^ 28) :
    mqttDecodeVarint (pre ++ mqttEncodeVarint v ++ suf) pre.length =
      .ok (v, (mqttEncodeVarint v).length) := by
  apply mqttDecodeVarint_mqttEncodeVarint (by omega)
  rw [List.append_assoc, List.drop_left]

theorem mqttDecodeVarint_append_mqttEncodeVarint_of_le (hv : 2 ^ 28 ≤ v) :
    mqttDecodeVarint (pre ++ mqttEncodeVarint v ++ suf) pre.length =
      .error (.valueError "malformed varint") := by
  apply rounds_mqttEncodeVarint_of_le (by omega)
  rw [List.append_assoc, Nat.add_zero, List.drop_left]

theorem mqttEncodeVarint_shortest (h : mqttDecodeVarint buf 0 = .ok (v, k)) :
    (mqttEncodeVarint v).length ≤ buf.length ∧
      (buf.length = (mqttEncodeVarint v).length → buf = mqttEncodeVarint v) := by
  have hk := rounds_eq_ok_bounds h
  obtain ⟨u, rfl, hle, heq⟩ := encoding_of_rounds_eq_ok h
  rw [Nat.zero_add, Nat.mul_one] at *
  refine ⟨by omega, fun hlen => ?_⟩
  have hbuf := heq (by omega)
  rwa [Nat.zero_add, List.drop_zero, List.take_of_length_le (by omega)] at hbuf

end Decoder

/-- Lengths below 2^28 are read back wherever they stand, in the fewest bytes that say them, and
no others are; the decoder raises one error for a cut and one for a length that does not end. -/
theorem length_varint :
    (∀ v < 2 ^ 28, ∀ pre suf : Bytes,
      mqttDecodeVarint (pre ++ mqttEncodeVarint v ++ suf) pre.length =
        .ok (v, (mqttEncodeVarint v).length)) ∧
    (∀ v < 2 ^ 28, ∀ (b : Bytes) (k : ℕ), mqttDecodeVarint b 0 = .ok (v, k) →
      (mqttEncodeVarint v).length ≤ b.length ∧
        (b.length = (mqttEncodeVarint v).length → b = mqttEncodeVarint v)) ∧
    (∀ v ≥ 2 ^ 28, ∀ pre suf : Bytes,
      mqttDecodeVarint (pre ++ mqttEncodeVarint v ++ suf) pre.length =
        .error (.valueError "malformed varint")) ∧
    ∀ (buf : Bytes) (offset : ℕ),
      ((∃ v k, mqttDecodeVarint buf offset = .ok (v, k)) ∨
        mqttDecodeVarint buf offset = .error (.valueError "buffer too short") ∨
        mqttDecodeVarint buf offset = .error (.valueError "malformed varint")) ∧
      (mqttDecodeVarint buf offset = .error (.valueError "buffer too short") ↔
        (buf.drop offset).length < 4 ∧ ∀ byte ∈ buf.drop offset, Continued byte) ∧
      (mqttDecodeVarint buf offset = .error (.valueError "malformed varint") ↔
        4 ≤ (buf.drop offset).length ∧ ∀ byte ∈ (buf.drop offset).take 4, Continued byte) := by
  refine ⟨?_, ?_, ?_, ?_⟩
  · intro v hv pre suf
    exact mqttDecodeVarint_append_mqttEncodeVarint hv
  · intro v _ b k h
    exact mqttEncodeVarint_shortest h
  · intro v hv pre suf
    exact mqttDecodeVarint_append_mqttEncodeVarint_of_le hv
  · intro buf offset
    exact ⟨mqttDecodeVarint_cases buf offset, mqttDecodeVarint_eq_short_iff,
      mqttDecodeVarint_eq_malformed_iff⟩

end Sidewire
