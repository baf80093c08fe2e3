import Sidewire.Lib.BigEndian
import Sidewire.Mqtt.Defs

/-! # Signed application packets

The wire layout is the sender's key, a signature and the signed section: queue
id, sequence number, timestamp, message type and message. Unpacking cuts the
fields back out at fixed offsets, once the signature over the signed section
verifies under the key in front of it.
-/

namespace Sidewire

variable {KP : Type}

abbrev srcPkLen : ℕ := 33
abbrev sigLen : ℕ := 64
abbrev queueIdLen : ℕ := 32
abbrev seqNoLen : ℕ := 4
abbrev timestampLen : ℕ := 8
abbrev msgTypeLen : ℕ := 1

abbrev sigOffset : ℕ := srcPkLen
abbrev signedMsgOffset : ℕ := srcPkLen + sigLen
abbrev queueIdOffset : ℕ := 0
abbrev seqNoOffset : ℕ := queueIdOffset + queueIdLen
abbrev timestampOffset : ℕ := seqNoOffset + seqNoLen
abbrev msgTypeOffset : ℕ := timestampOffset + timestampLen
abbrev msgOffset : ℕ := msgTypeOffset + msgTypeLen

abbrev minPacketLen : ℕ := signedMsgOffset + msgOffset

/-- `bs[i:i+n]`. -/
def slice (i n : ℕ) (bs : Bytes) : Bytes := (bs.drop i).take n

/-- `struct.pack` of an unsigned field of the given width. -/
def structPack (width : ℕ) (n : ℤ) : Except PyExc Bytes :=
  if 0 ≤ n ∧ n < 256 ^ width then .ok (BigEndian.toBytes width n.toNat) else .error .structError

structure AppPacket where
  srcPkHex : String
  sigHex : String
  queueIdHex : String
  seqNo : ℤ
  timestamp : ℤ
  msgType : ℕ
  msg : String
  deriving DecidableEq, Repr

/-- The fields a sender fills in; the key, the signature and the timestamp come from packing. -/
structure Draft where
  queueIdHex : String
  seqNo : ℤ
  msgType : MsgEnum
  msg : PyMsg
  deriving DecidableEq, Repr

namespace AppPacket

def signedMsg (A : Aio KP) (now : ℚ) (d : Draft) (msgBytes : Bytes) : Except PyExc Bytes := do
  if d.queueIdHex.length ≠ 64 then
    throw (.valueError ("queue_id_hex must be 64 hex chars, got " ++ toString d.queueIdHex.length))
  let queueIdBytes ← A.hToB d.queueIdHex
  let seqNoBytes ← structPack seqNoLen d.seqNo
  let timestampBytes ← structPack timestampLen (pyInt now)
  let msgTypeByte ← structPack msgTypeLen d.msgType.value
  return queueIdBytes ++ seqNoBytes ++ timestampBytes ++ msgTypeByte ++ msgBytes

def assemble (A : Aio KP) (kp : KP) (rnd : ℕ) (signed : Bytes) : Bytes :=
  A.compactPublicKey kp ++ A.sign kp rnd signed ++ signed

def pack (A : Aio KP) (kp : KP) (rnd : ℕ) (now : ℚ) (d : Draft) : Except PyExc Bytes := do
  let signed ← signedMsg A now d (if d.msg.truthy then A.toB d.msg else [])
  return assemble A kp rnd signed

/-- `pack_async` up to the `await` of the signature; `assemble` is what follows it. -/
def packAsyncBegin (A : Aio KP) (now : ℚ) (d : Draft) : Except PyExc Bytes :=
  signedMsg A now d (A.toB d.msg)

/-- `unpack` and `unpack_async`, which differ only in where the verification runs. -/
def unpack (A : Aio KP) (payload : Bytes) : Except PyExc (Option AppPacket) :=
  let srcPkBytes := payload.take srcPkLen
  let sigBytes := slice sigOffset sigLen payload
  let signed := payload.drop signedMsgOffset
  if payload.length < minPacketLen then .ok none
  else if A.verify srcPkBytes sigBytes signed = false then .ok none
  else do
    let msg ← A.toS (signed.drop msgOffset)
    return some
      { srcPkHex := A.toH srcPkBytes
        sigHex := A.toH sigBytes
        queueIdHex := A.toH (slice queueIdOffset queueIdLen signed)
        seqNo := BigEndian.ofBytes (slice seqNoOffset seqNoLen signed)
        timestamp := BigEndian.ofBytes (slice timestampOffset timestampLen signed)
        msgType := BigEndian.ofBytes (slice msgTypeOffset msgTypeLen signed)
        msg }

variable {A : Aio KP} {kp : KP} {rnd : ℕ} {now : ℚ} {d : Draft} {mb signed payload : Bytes}
  {p : AppPacket}

theorem structPack_eq_ok {w : ℕ} {n : ℤ} {bs : Bytes} (h : structPack w n = .ok bs) :
    0 ≤ n ∧ n < 256 ^ w ∧ bs = BigEndian.toBytes w n.toNat := by
  unfold structPack at h
  split_ifs at h with hn
  exact ⟨hn.1, hn.2, (Except.ok.inj h).symm⟩

structure Signed (A : Aio KP) (now : ℚ) (d : Draft) (mb signed : Bytes) : Prop where
  length_queueId : d.queueIdHex.length = 64
  seqNo_nonneg : 0 ≤ d.seqNo
  seqNo_lt : d.seqNo < 256 ^ seqNoLen
  time_nonneg : 0 ≤ pyInt now
  time_lt : pyInt now < 256 ^ timestampLen
  layout : ∃ qid, A.hToB d.queueIdHex = .ok qid ∧
    signed = qid ++ BigEndian.toBytes seqNoLen d.seqNo.toNat ++
      BigEndian.toBytes timestampLen (pyInt now).toNat ++
      BigEndian.toBytes msgTypeLen d.msgType.value ++ mb

theorem signedMsg_spec (h : signedMsg A now d mb = .ok signed) : Signed A now d mb signed := by
  unfold signedMsg at h
  by_cases hq : d.queueIdHex.length = 64
  · cases hb : A.hToB d.queueIdHex with
    | error e => simp [hq, hb, bind, Except.bind] at h
    | ok qid =>
      cases hs : structPack seqNoLen d.seqNo with
      | error e => simp [hq, hb, hs, bind, Except.bind] at h
      | ok sb =>
        cases ht : structPack timestampLen (pyInt now) with
        | error e => simp [hq, hb, hs, ht, bind, Except.bind] at h
        | ok tb =>
          cases hm : structPack msgTypeLen d.msgType.value with
          | error e => simp [hq, hb, hs, ht, hm, bind, Except.bind] at h
          | ok yb =>
            simp only [hq, ne_eq, not_true_eq_false, if_false, hb, hs, ht, hm, bind, Except.bind,
              pure, Except.pure, Except.ok.injEq] at h
            obtain ⟨hs₀, hs₁, rfl⟩ := structPack_eq_ok hs
            obtain ⟨ht₀, ht₁, rfl⟩ := structPack_eq_ok ht
            obtain ⟨-, -, rfl⟩ := structPack_eq_ok hm
            exact ⟨hq, hs₀, hs₁, ht₀, ht₁, qid, hb, by simpa using h.symm⟩
  · simp [hq, bind, Except.bind, throw, throwThe, MonadExceptOf.throw] at h

theorem pack_eq_ok (hA : A.Lawful) {out : Bytes} (h : pack A kp rnd now d = .ok out) :
    ∃ signed, Signed A now d (A.toB d.msg) signed ∧ out = assemble A kp rnd signed := by
  have he : (if d.msg.truthy then A.toB d.msg else []) = A.toB d.msg := by
    split_ifs with ht
    · rfl
    · exact (hA.toB_of_not_truthy (Bool.eq_false_of_not_eq_true ht)).symm
  unfold pack at h
  rw [he] at h
  cases hs : signedMsg A now d (A.toB d.msg) with
  | error e => simp [hs, bind, Except.bind] at h
  | ok signed =>
    simp only [hs, bind, Except.bind, pure, Except.pure, Except.ok.injEq] at h
    exact ⟨signed, signedMsg_spec hs, h.symm⟩

theorem packAsyncBegin_eq_ok (h : packAsyncBegin A now d = .ok signed) :
    Signed A now d (A.toB d.msg) signed := signedMsg_spec h

structure Accepted (A : Aio KP) (payload : Bytes) (p : AppPacket) : Prop where
  length_le : minPacketLen ≤ payload.length
  verified : A.verify (payload.take srcPkLen) (slice sigOffset sigLen payload)
    (payload.drop signedMsgOffset) = true
  srcPkHex : p.srcPkHex = A.toH (payload.take srcPkLen)
  sigHex : p.sigHex = A.toH (slice sigOffset sigLen payload)
  queueIdHex : p.queueIdHex = A.toH (slice queueIdOffset queueIdLen (payload.drop signedMsgOffset))
  seqNo : p.seqNo = BigEndian.ofBytes (slice seqNoOffset seqNoLen (payload.drop signedMsgOffset))
  timestamp : p.timestamp =
    BigEndian.ofBytes (slice timestampOffset timestampLen (payload.drop signedMsgOffset))
  msgType : p.msgType =
    BigEndian.ofBytes (slice msgTypeOffset msgTypeLen (payload.drop signedMsgOffset))
  msg : A.toS ((payload.drop signedMsgOffset).drop msgOffset) = .ok p.msg

theorem unpack_spec (h : unpack A payload = .ok (some p)) : Accepted A payload p := by
  unfold unpack at h
  simp only [] at h
  split_ifs at h with hl hv
  · cases h
  · cases h
  cases hm : A.toS ((payload.drop signedMsgOffset).drop msgOffset) with
  | error e => rw [hm] at h; cases h
  | ok m =>
    rw [hm] at h
    cases h
    exact ⟨not_lt.mp hl, Bool.eq_true_of_not_eq_false hv, rfl, rfl, rfl, rfl, rfl, rfl, hm⟩

theorem length_slice {i n : ℕ} {bs : Bytes} (h : i + n ≤ bs.length) : (slice i n bs).length = n := by
  simp only [slice, List.length_take, List.length_drop]; omega

theorem slice_append {i n : ℕ} {xs ys zs : Bytes} (hx : xs.length = i) (hy : ys.length = n) :
    slice i n (xs ++ (ys ++ zs)) = ys := by
  rw [slice, List.drop_left' hx, List.take_left' hy]

theorem drop_append_slice (i n : ℕ) (bs : Bytes) : slice i n bs ++ bs.drop (i + n) = bs.drop i := by
  rw [slice, ← List.drop_drop, List.take_append_drop]

theorem slice_layout {qid sb tb yb : Bytes} (mb : Bytes) (hq : qid.length = queueIdLen)
    (hs : sb.length = seqNoLen) (ht : tb.length = timestampLen) (hy : yb.length = msgTypeLen) :
    slice queueIdOffset queueIdLen (qid ++ sb ++ tb ++ yb ++ mb) = qid ∧
      slice seqNoOffset seqNoLen (qid ++ sb ++ tb ++ yb ++ mb) = sb ∧
      slice timestampOffset timestampLen (qid ++ sb ++ tb ++ yb ++ mb) = tb ∧
      slice msgTypeOffset msgTypeLen (qid ++ sb ++ tb ++ yb ++ mb) = yb ∧
      (qid ++ sb ++ tb ++ yb ++ mb).drop msgOffset = mb := by
  refine ⟨?_, ?_, ?_, ?_, ?_⟩
  · simp only [List.append_assoc]
    exact slice_append (rfl : ([] : Bytes).length = 0) hq
  · simp only [List.append_assoc]
    exact slice_append hq hs
  · have hx : (qid ++ sb).length = timestampOffset := by
      rw [List.length_append, hq, hs]
      rfl
    rw [List.append_assoc, List.append_assoc]
    exact slice_append hx ht
  · have hx : (qid ++ sb ++ tb).length = msgTypeOffset := by
      rw [List.length_append, List.length_append, hq, hs, ht]
      rfl
    rw [List.append_assoc]
    exact slice_append hx hy
  · apply List.drop_left'
    rw [List.length_append, List.length_append, List.length_append, hq, hs, ht, hy]
    rfl

theorem Accepted.length_srcPkHex (hA : A.Lawful) (h : Accepted A payload p) :
    p.srcPkHex.length = 66 := by
  have hl : 142 ≤ payload.length := h.length_le
  rw [h.srcPkHex, hA.length_toH, List.length_take]
  change 2 * min 33 payload.length = 66
  omega

theorem Accepted.le_length_signed (h : Accepted A payload p) :
    45 ≤ (payload.drop signedMsgOffset).length := by
  have hl : 142 ≤ payload.length := h.length_le
  rw [List.length_drop]
  change 45 ≤ payload.length - 97
  omega

theorem Accepted.length_queueIdHex (hA : A.Lawful) (h : Accepted A payload p) :
    p.queueIdHex.length = 64 := by
  have hl := h.le_length_signed
  rw [h.queueIdHex, hA.length_toH, length_slice (le_trans (by decide) hl)]
  rfl

theorem Accepted.seqNo_nonneg (h : Accepted A payload p) : 0 ≤ p.seqNo := by
  rw [h.seqNo]; exact Int.natCast_nonneg _

theorem Accepted.seqNo_lt (h : Accepted A payload p) : p.seqNo < 256 ^ seqNoLen := by
  have hb := BigEndian.ofBytes_lt (slice seqNoOffset seqNoLen (payload.drop signedMsgOffset))
  rw [length_slice (le_trans (by decide) h.le_length_signed)] at hb
  rw [h.seqNo]
  exact_mod_cast hb

theorem structPack_ok {w : ℕ} {n : ℤ} (h₀ : 0 ≤ n) (h₁ : n < 256 ^ w) :
    structPack w n = .ok (BigEndian.toBytes w n.toNat) := if_pos ⟨h₀, h₁⟩

theorem packAsyncBegin_ack_ok (hA : A.Lawful) (h : Accepted A payload p) (h₀ : 0 ≤ pyInt now)
    (h₁ : pyInt now < 256 ^ timestampLen) (msg : PyMsg) :
    ∃ signed, packAsyncBegin A now ⟨p.queueIdHex, p.seqNo, .msgack, msg⟩ = .ok signed := by
  obtain ⟨qid, hq⟩ : ∃ qid, A.hToB p.queueIdHex = .ok qid := ⟨_, by rw [h.queueIdHex, hA.hToB_toH]⟩
  have hm : structPack msgTypeLen (MsgEnum.msgack.value : ℤ) = .ok _ :=
    structPack_ok (by decide) (by decide)
  simp only [packAsyncBegin, signedMsg, h.length_queueIdHex hA, ne_eq, not_true_eq_false, if_false,
    hq, structPack_ok h.seqNo_nonneg h.seqNo_lt, structPack_ok h₀ h₁, hm]
  exact ⟨_, rfl⟩

section RoundTrip

variable (hA : A.Lawful)

include hA

theorem take_assemble : (assemble A kp rnd signed).take srcPkLen = A.compactPublicKey kp := by
  rw [assemble, List.append_assoc, List.take_left' (hA.length_compactPublicKey kp)]

theorem slice_assemble : slice sigOffset sigLen (assemble A kp rnd signed) = A.sign kp rnd signed := by
  rw [slice, assemble, List.append_assoc, List.drop_left' (hA.length_compactPublicKey kp),
    List.take_left' (hA.length_sign kp rnd signed)]

theorem drop_assemble : (assemble A kp rnd signed).drop signedMsgOffset = signed := by
  rw [assemble, List.drop_left' (by
    rw [List.length_append, hA.length_compactPublicKey, hA.length_sign])]

theorem Signed.fields (h : Signed A now d mb signed) :
    (∃ qid, A.hToB d.queueIdHex = .ok qid ∧ slice queueIdOffset queueIdLen signed = qid) ∧
      (BigEndian.ofBytes (slice seqNoOffset seqNoLen signed) : ℤ) = d.seqNo ∧
      (BigEndian.ofBytes (slice timestampOffset timestampLen signed) : ℤ) = pyInt now ∧
      BigEndian.ofBytes (slice msgTypeOffset msgTypeLen signed) = d.msgType.value ∧
      signed.drop msgOffset = mb ∧ msgOffset ≤ signed.length := by
  obtain ⟨qid, hq, rfl⟩ := h.layout
  have hl : qid.length = 32 := by
    have := hA.length_hToB hq
    have := h.length_queueId
    omega
  have hs : d.seqNo.toNat < 256 ^ seqNoLen :=
    (Int.toNat_lt h.seqNo_nonneg).mpr (by exact_mod_cast h.seqNo_lt)
  have ht : (pyInt now).toNat < 256 ^ timestampLen :=
    (Int.toNat_lt h.time_nonneg).mpr (by exact_mod_cast h.time_lt)
  have hm : d.msgType.value < 256 ^ msgTypeLen := by cases d.msgType <;> decide
  obtain ⟨hqs, hss, hts, hms, hmb⟩ := slice_layout mb hl
    (BigEndian.length_toBytes seqNoLen d.seqNo.toNat)
    (BigEndian.length_toBytes timestampLen (pyInt now).toNat)
    (BigEndian.length_toBytes msgTypeLen d.msgType.value)
  refine ⟨⟨qid, hq, hqs⟩, ?_, ?_, ?_, hmb, ?_⟩
  · rw [hss, BigEndian.ofBytes_toBytes hs]
    exact Int.toNat_of_nonneg h.seqNo_nonneg
  · rw [hts, BigEndian.ofBytes_toBytes ht]
    exact Int.toNat_of_nonneg h.time_nonneg
  · rw [hms, BigEndian.ofBytes_toBytes hm]
  · simp only [List.length_append, BigEndian.length_toBytes, hl]; exact Nat.le_add_right 45 _

theorem Accepted.fields_of_signed (ha : Accepted A payload p)
    (h : Signed A now d mb (payload.drop signedMsgOffset)) :
    A.hToB p.queueIdHex = A.hToB d.queueIdHex ∧ p.seqNo = d.seqNo ∧ p.timestamp = pyInt now ∧
      p.msgType = d.msgType.value ∧ A.toS mb = .ok p.msg := by
  obtain ⟨⟨qid, hq, hqs⟩, hs, ht, hm, hb, -⟩ := h.fields hA
  refine ⟨?_, ?_, ?_, ?_, ?_⟩
  · rw [ha.queueIdHex, hqs, hA.hToB_toH, hq]
  · rw [ha.seqNo, hs]
  · rw [ha.timestamp, ht]
  · rw [ha.msgType, hm]
  · rw [← hb]; exact ha.msg

/-- Packing and unpacking: every field comes back, with the signer's key. -/
theorem unpack_assemble (h : Signed A now d mb signed)
    (hp : unpack A (assemble A kp rnd signed) = .ok (some p)) :
    p.srcPkHex = A.pkHex kp ∧ A.hToB p.queueIdHex = A.hToB d.queueIdHex ∧ p.seqNo = d.seqNo ∧
      p.timestamp = pyInt now ∧ p.msgType = d.msgType.value ∧ A.toS mb = .ok p.msg := by
  have ha := unpack_spec hp
  refine ⟨?_, ha.fields_of_signed hA (by rwa [drop_assemble hA])⟩
  rw [ha.srcPkHex, take_assemble hA, Aio.pkHex]

end RoundTrip

end AppPacket

end Sidewire
