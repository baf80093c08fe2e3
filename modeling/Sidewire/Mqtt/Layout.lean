import Sidewire.Mqtt.Concrete
import Sidewire.Mqtt.Operations

/-! # The wire layout, in both directions

Packing and unpacking as methods of a packet with all its fields, each in its
two variants. Every field comes back from the place it was written to, and a
payload that is accepted is spelled by the fields that are read from it, as far
as its message is text.
-/

namespace Sidewire

variable {KP : Type}

structure PacketFields where
  queueIdHex : String
  seqNo : ℤ
  timestamp : Option ℤ := none
  msgType : ℤ
  msg : Option PyMsg := none
  deriving DecidableEq, Repr

def Aio.LowercaseHex (A : Aio KP) : Prop := ∀ b, A.toH b = String.ofList (Concrete.toHexChars b)

/-- What UTF-8 gives of `to_b` and `to_s`: any text comes back. -/
def Aio.Utf8 (A : Aio KP) : Prop := ∀ s, A.toS (A.toB (.str s)) = .ok s

def IsLowercaseHex (q : String) : Prop :=
  ∀ c ∈ q.toList, 48 ≤ c.toNat ∧ c.toNat ≤ 57 ∨ 97 ≤ c.toNat ∧ c.toNat ≤ 102

namespace AppPacket

/-- `signed_msg` of the packing methods. -/
def signedSection (A : Aio KP) (queueIdHex : String) (seqNo timestamp msgType : ℤ)
    (msgBytes : Bytes) : Except PyExc Bytes := do
  let queueIdBytes ← A.hToB queueIdHex
  let seqNoBytes ← structPack seqNoLen seqNo
  let timestampBytes ← structPack timestampLen timestamp
  let msgTypeByte ← structPack msgTypeLen msgType
  return queueIdBytes ++ seqNoBytes ++ timestampBytes ++ msgTypeByte ++ msgBytes

def packFields (A : Aio KP) (kp : KP) (rnd : ℕ) (now : ℚ) (f : PacketFields) :
    Except PyExc Bytes := do
  if f.queueIdHex.length ≠ 64 then
    throw (.valueError ("queue_id_hex must be 64 hex chars, got " ++ toString f.queueIdHex.length))
  let timestamp := f.timestamp.getD (pyInt now)
  let msgBytes := (f.msg.filter PyMsg.truthy).elim [] A.toB
  let signed ← signedSection A f.queueIdHex f.seqNo timestamp f.msgType msgBytes
  return assemble A kp rnd signed

def packFieldsAsync (A : Aio KP) (kp : KP) (rnd : ℕ) (now : ℚ) (f : PacketFields) :
    Except PyExc Bytes := do
  if f.queueIdHex.length ≠ 64 then
    throw (.valueError ("queue_id_hex must be 64 hex chars, got " ++ toString f.queueIdHex.length))
  let timestamp := f.timestamp.getD (pyInt now)
  let msg := f.msg.getD (.bytes [])
  let signed ← signedSection A f.queueIdHex f.seqNo timestamp f.msgType (A.toB msg)
  return assemble A kp rnd signed

/-- `unpack_async` up to the `await`: the key, the signature and the signed section. -/
def unpackAsyncBegin (payload : Bytes) : Option (Bytes × Bytes × Bytes) :=
  if payload.length < minPacketLen then none
  else
    let srcPkBytes := payload.take srcPkLen
    let sigBytes := slice sigOffset sigLen payload
    let signedMsg := payload.drop signedMsgOffset
    some (srcPkBytes, sigBytes, signedMsg)

/-- `unpack_async` once the verification is through. -/
def unpackAsyncEnd (A : Aio KP) (srcPkBytes sigBytes signedMsg : Bytes) (verified : Bool) :
    Except PyExc (Option AppPacket) :=
  if verified = false then .ok none
  else do
    let queueIdBytes := slice queueIdOffset queueIdLen signedMsg
    let seqNoBytes := slice seqNoOffset seqNoLen signedMsg
    let timestampBytes := slice timestampOffset timestampLen signedMsg
    let msgTypeByte := slice msgTypeOffset msgTypeLen signedMsg
    let msgBytes := signedMsg.drop msgOffset
    let seqNo := BigEndian.ofBytes seqNoBytes
    let timestamp := BigEndian.ofBytes timestampBytes
    let msgType := BigEndian.ofBytes msgTypeByte
    let msg ← A.toS msgBytes
    return some
      { srcPkHex := A.toH srcPkBytes
        sigHex := A.toH sigBytes
        queueIdHex := A.toH queueIdBytes
        seqNo
        timestamp
        msgType
        msg }

def unpackAsync (A : Aio KP) (payload : Bytes) : Except PyExc (Option AppPacket) :=
  match unpackAsyncBegin payload with
  | none => .ok none
  | some (srcPkBytes, sigBytes, signedMsg) =>
    unpackAsyncEnd A srcPkBytes sigBytes signedMsg (A.verify srcPkBytes sigBytes signedMsg)

def serialize (A : Aio KP) (p : AppPacket) : Except PyExc Bytes := do
  let srcPkBytes ← A.hToB p.srcPkHex
  let sigBytes ← A.hToB p.sigHex
  let signed ← signedSection A p.queueIdHex p.seqNo p.timestamp p.msgType (A.toB (.str p.msg))
  return srcPkBytes ++ sigBytes ++ signed

variable {A : Aio KP} {kp : KP} {rnd : ℕ} {now : ℚ} {f : PacketFields} {payload mb : Bytes}
  {p : AppPacket} {q : String}

theorem unpackAsync_eq (A : Aio KP) (payload : Bytes) : unpackAsync A payload = unpack A payload := by
  rw [unpackAsync, unpackAsyncBegin, unpack]
  by_cases hlen : payload.length < minPacketLen
  · simp only [if_pos hlen]
  · simp only [if_neg hlen]
    rfl

theorem packFields_eq_packFieldsAsync (hA : A.Lawful) (kp : KP) (rnd : ℕ) (now : ℚ)
    (f : PacketFields) : packFields A kp rnd now f = packFieldsAsync A kp rnd now f := by
  have hmsg : (f.msg.filter PyMsg.truthy).elim [] A.toB = A.toB (f.msg.getD (.bytes [])) := by
    cases hm : f.msg with
    | none => exact (hA.toB_bytes []).symm
    | some m =>
      by_cases ht : m.truthy = true
      · simp [Option.filter, ht]
      · have hnil := hA.toB_of_not_truthy (Bool.eq_false_of_not_eq_true ht)
        simp [Option.filter, ht, hnil]
  simp only [packFields, packFieldsAsync, hmsg]

/-- What is sent for a draft is packed from its fields, stamped with the current time. -/
theorem pack_eq_packFields (A : Aio KP) (kp : KP) (rnd : ℕ) (now : ℚ) (d : Draft) :
    pack A kp rnd now d = packFields A kp rnd now
      { queueIdHex := d.queueIdHex, seqNo := d.seqNo, msgType := d.msgType.value,
        msg := some d.msg } := by
  have hmsg : ((some d.msg).filter PyMsg.truthy).elim [] A.toB =
      if d.msg.truthy then A.toB d.msg else [] := by
    cases ht : d.msg.truthy <;> simp [Option.filter, ht]
  simp only [pack, packFields, signedMsg, hmsg]
  split_ifs <;> rfl

theorem exists_hexDigit {c : Char}
    (h : 48 ≤ c.toNat ∧ c.toNat ≤ 57 ∨ 97 ≤ c.toNat ∧ c.toNat ≤ 102) :
    ∃ n < 16, Concrete.hexDigit n = c := by
  rcases h with ⟨hle, hge⟩ | ⟨hle, hge⟩
  · refine ⟨c.toNat - 48, by omega, ?_⟩
    have hn : 48 + (c.toNat - 48) = c.toNat := by omega
    rw [Concrete.hexDigit, if_pos (by omega), hn, Char.ofNat_toNat]
  · refine ⟨c.toNat - 87, by omega, ?_⟩
    have hn : 87 + (c.toNat - 87) = c.toNat := by omega
    rw [Concrete.hexDigit, if_neg (by omega), hn, Char.ofNat_toNat]

theorem exists_toHexChars : ∀ {n : ℕ} {cs : List Char}, cs.length = 2 * n →
    (∀ c ∈ cs, 48 ≤ c.toNat ∧ c.toNat ≤ 57 ∨ 97 ≤ c.toNat ∧ c.toNat ≤ 102) →
    ∃ b : Bytes, b.length = n ∧ Concrete.toHexChars b = cs
  | 0, [], _, _ => ⟨[], rfl, rfl⟩
  | 0, _ :: _, h, _ => by simp at h
  | n + 1, [], h, _ => by simp at h
  | n + 1, [_], h, _ => by simp at h; omega
  | n + 1, c :: d :: cs, h, hcs => by
    obtain ⟨x, hx, rfl⟩ := exists_hexDigit (hcs c (by simp))
    obtain ⟨y, hy, rfl⟩ := exists_hexDigit (hcs d (by simp))
    have hlen : cs.length = 2 * n := by simp at h; omega
    obtain ⟨b, hb, rfl⟩ := exists_toHexChars hlen (fun e he => hcs e (by simp [he]))
    refine ⟨UInt8.ofNat (x * 16 + y) :: b, by simp [hb], ?_⟩
    have hnat : (UInt8.ofNat (x * 16 + y)).toNat = x * 16 + y := by simp; omega
    have hdiv : (x * 16 + y) / 16 = x := by omega
    have hmod : (x * 16 + y) % 16 = y := by omega
    change Concrete.hexDigit (_ / 16) :: Concrete.hexDigit (_ % 16) :: Concrete.toHexChars b = _
    rw [hnat, hdiv, hmod]

theorem exists_queueId (hA : A.Lawful) (hhex : A.LowercaseHex) (hlen : q.length = 64)
    (hq : IsLowercaseHex q) : ∃ qid, A.hToB q = .ok qid ∧ qid.length = queueIdLen ∧ A.toH qid = q := by
  obtain ⟨qid, hqid, hchars⟩ := exists_toHexChars (n := 32) (by rw [String.length_toList, hlen]) hq
  have htoH : A.toH qid = q := by rw [hhex, hchars, String.ofList_toList]
  exact ⟨qid, by rw [← htoH, hA.hToB_toH], hqid, htoH⟩

theorem signedSection_eq_ok (mb : Bytes) {s ts mt : ℤ} {qid : Bytes} (hq : A.hToB q = .ok qid)
    (hs : 0 ≤ s ∧ s < 256 ^ seqNoLen) (hts : 0 ≤ ts ∧ ts < 256 ^ timestampLen)
    (hmt : 0 ≤ mt ∧ mt < 256 ^ msgTypeLen) :
    signedSection A q s ts mt mb = .ok (qid ++ BigEndian.toBytes seqNoLen s.toNat ++
      BigEndian.toBytes timestampLen ts.toNat ++ BigEndian.toBytes msgTypeLen mt.toNat ++ mb) := by
  simp only [signedSection, hq, structPack_ok hs.1 hs.2, structPack_ok hts.1 hts.2,
    structPack_ok hmt.1 hmt.2]
  rfl

theorem ofBytes_structPack {w : ℕ} {n : ℤ} (h : 0 ≤ n ∧ n < 256 ^ w) :
    (BigEndian.ofBytes (BigEndian.toBytes w n.toNat) : ℤ) = n := by
  rw [BigEndian.ofBytes_toBytes ((Int.toNat_lt h.1).mpr (by exact_mod_cast h.2))]
  exact Int.toNat_of_nonneg h.1

theorem unpack_signedSection (hA : A.Lawful) (kp : KP) (rnd : ℕ) {s ts mt : ℤ} {qid : Bytes}
    (hq : A.hToB q = .ok qid) (hl : qid.length = queueIdLen) (hs : 0 ≤ s ∧ s < 256 ^ seqNoLen)
    (hts : 0 ≤ ts ∧ ts < 256 ^ timestampLen) (hmt : 0 ≤ mt ∧ mt < 256 ^ msgTypeLen) {signed : Bytes}
    (hsigned : signedSection A q s ts mt mb = .ok signed) :
    unpack A (assemble A kp rnd signed) = (A.toS mb).map fun msg => some
      { srcPkHex := A.pkHex kp
        sigHex := A.toH (A.sign kp rnd signed)
        queueIdHex := A.toH qid
        seqNo := s
        timestamp := ts
        msgType := mt.toNat
        msg } := by
  rw [signedSection_eq_ok mb hq hs hts hmt, Except.ok.injEq] at hsigned
  obtain ⟨hqs, hss, htss, hms, hmbs⟩ := slice_layout mb hl
    (BigEndian.length_toBytes seqNoLen s.toNat) (BigEndian.length_toBytes timestampLen ts.toNat)
    (BigEndian.length_toBytes msgTypeLen mt.toNat)
  rw [hsigned] at hqs hss htss hms hmbs
  have hlen : ¬ (assemble A kp rnd signed).length < minPacketLen := by
    rw [assemble, List.length_append, List.length_append, hA.length_compactPublicKey,
      hA.length_sign, ← hsigned]
    simp only [List.length_append, BigEndian.length_toBytes, hl]
    change ¬ 33 + 64 + (32 + 4 + 8 + 1 + mb.length) < 142
    omega
  have hmt' : BigEndian.ofBytes (BigEndian.toBytes msgTypeLen mt.toNat) = mt.toNat := by
    have := ofBytes_structPack hmt
    omega
  simp only [unpack, if_neg hlen, take_assemble hA, slice_assemble hA, drop_assemble hA,
    hA.verify_sign, hqs, hss, htss, hms, hmbs, ofBytes_structPack hs, ofBytes_structPack hts, hmt']
  cases A.toS mb <;> rfl

theorem Signed.unpack (hA : A.Lawful) (kp : KP) (rnd : ℕ) {d : Draft} {signed : Bytes}
    (h : Signed A now d mb signed) :
    (∃ e, A.toS mb = .error e ∧ unpack A (assemble A kp rnd signed) = .error e) ∨
      ∃ p, unpack A (assemble A kp rnd signed) = .ok (some p) ∧ A.toS mb = .ok p.msg := by
  obtain ⟨qid, hq, hsigned⟩ := h.layout
  have hl : qid.length = queueIdLen := by
    have := hA.length_hToB hq
    have := h.length_queueId
    change qid.length = 32
    omega
  have hmt : 0 ≤ (d.msgType.value : ℤ) ∧ (d.msgType.value : ℤ) < 256 ^ msgTypeLen := by
    cases d.msgType <;> decide
  have hsection := signedSection_eq_ok mb hq ⟨h.seqNo_nonneg, h.seqNo_lt⟩
    ⟨h.time_nonneg, h.time_lt⟩ hmt
  rw [Int.toNat_natCast, ← hsigned] at hsection
  rw [unpack_signedSection hA kp rnd hq hl ⟨h.seqNo_nonneg, h.seqNo_lt⟩
    ⟨h.time_nonneg, h.time_lt⟩ hmt hsection]
  cases A.toS mb with
  | error e => exact Or.inl ⟨e, rfl, rfl⟩
  | ok msg => exact Or.inr ⟨_, rfl, rfl⟩

theorem structPack_bounds {w : ℕ} {bs : Bytes} (h : bs.length = w) :
    (0 ≤ (BigEndian.ofBytes bs : ℤ) ∧ (BigEndian.ofBytes bs : ℤ) < 256 ^ w) ∧
      BigEndian.toBytes w (BigEndian.ofBytes bs : ℤ).toNat = bs := by
  have hlt := BigEndian.ofBytes_lt bs
  have hbytes := BigEndian.toBytes_ofBytes bs
  rw [h] at hlt hbytes
  rw [Int.toNat_natCast]
  exact ⟨⟨Int.natCast_nonneg _, by exact_mod_cast hlt⟩, hbytes⟩

theorem slices_append (signed : Bytes) :
    slice queueIdOffset queueIdLen signed ++ slice seqNoOffset seqNoLen signed ++
      slice timestampOffset timestampLen signed ++ slice msgTypeOffset msgTypeLen signed ++
      signed.drop msgOffset = signed := by
  have hrest : slice msgTypeOffset msgTypeLen signed ++ signed.drop msgOffset =
      signed.drop msgTypeOffset := drop_append_slice msgTypeOffset msgTypeLen signed
  have htime : slice timestampOffset timestampLen signed ++ signed.drop msgTypeOffset =
      signed.drop timestampOffset := drop_append_slice timestampOffset timestampLen signed
  have hseq : slice seqNoOffset seqNoLen signed ++ signed.drop timestampOffset =
      signed.drop seqNoOffset := drop_append_slice seqNoOffset seqNoLen signed
  have hid : slice queueIdOffset queueIdLen signed ++ signed.drop seqNoOffset = signed :=
    drop_append_slice queueIdOffset queueIdLen signed
  rw [List.append_assoc, List.append_assoc, List.append_assoc, hrest, htime, hseq, hid]

theorem signedSection_slices (hA : A.Lawful) {signed : Bytes} (hlen : 45 ≤ signed.length) :
    signedSection A (A.toH (slice queueIdOffset queueIdLen signed))
      (BigEndian.ofBytes (slice seqNoOffset seqNoLen signed))
      (BigEndian.ofBytes (slice timestampOffset timestampLen signed))
      (BigEndian.ofBytes (slice msgTypeOffset msgTypeLen signed) : ℕ) (signed.drop msgOffset) =
      .ok signed := by
  obtain ⟨hs, hsb⟩ := structPack_bounds
    (length_slice (le_trans (by decide : seqNoOffset + seqNoLen ≤ 45) hlen))
  obtain ⟨ht, htb⟩ := structPack_bounds
    (length_slice (le_trans (by decide : timestampOffset + timestampLen ≤ 45) hlen))
  obtain ⟨hm, hmb⟩ := structPack_bounds
    (length_slice (le_trans (by decide : msgTypeOffset + msgTypeLen ≤ 45) hlen))
  rw [signedSection_eq_ok _ (hA.hToB_toH _) hs ht hm, hsb, htb, hmb, slices_append]

theorem Accepted.serialize (hA : A.Lawful) (h : Accepted A payload p)
    (hmsg : A.toB (.str p.msg) = (payload.drop signedMsgOffset).drop msgOffset) :
    serialize A p = .ok payload := by
  have hsection := signedSection_slices hA h.le_length_signed
  have hsig : slice sigOffset sigLen payload ++ payload.drop signedMsgOffset =
      payload.drop srcPkLen := drop_append_slice sigOffset sigLen payload
  simp only [AppPacket.serialize, h.srcPkHex, h.sigHex, h.queueIdHex, h.seqNo, h.timestamp,
    h.msgType, hmsg, hA.hToB_toH, hsection, bind, Except.bind, pure, Except.pure,
    List.append_assoc, hsig, List.take_append_drop]

/-- The packing methods and the unpacking methods are inverse to each other: every field comes back
with the signer's key, and only a long enough payload whose signature verifies is unpacked, to
fields that spell it if its message is text. -/
theorem layout_round_trip (A : Aio KP) (hA : A.Lawful) (hhex : A.LowercaseHex) (hutf : A.Utf8) :
    (∀ (kp : KP) (rnd : ℕ) (now : ℚ) (q : String) (s ts mt : ℤ) (msg : String),
      q.length = 64 → IsLowercaseHex q → 0 ≤ s ∧ s < 2 ^ 32 → 0 ≤ ts ∧ ts < 2 ^ 64 →
      0 ≤ mt ∧ mt < 256 →
      ∃ out p, packFields A kp rnd now ⟨q, s, some ts, mt, some (.str msg)⟩ = .ok out ∧
        packFieldsAsync A kp rnd now ⟨q, s, some ts, mt, some (.str msg)⟩ = .ok out ∧
        unpack A out = .ok (some p) ∧ unpackAsync A out = .ok (some p) ∧
        p.srcPkHex = A.pkHex kp ∧ p.queueIdHex = q ∧ p.seqNo = s ∧ p.timestamp = ts ∧
        p.msgType = mt ∧ p.msg = msg) ∧
    ∀ (payload : Bytes) (p : AppPacket),
      unpack A payload = .ok (some p) ∨ unpackAsync A payload = .ok (some p) →
      142 ≤ payload.length ∧
        A.verify (payload.take 33) (slice 33 64 payload) (payload.drop 97) = true ∧
        ((∃ s, (payload.drop 97).drop 45 = A.toB (.str s)) → serialize A p = .ok payload) := by
  constructor
  · intro kp rnd now q s ts mt msg hlen hq hs hts hmt
    obtain ⟨qid, hqid, hl, htoH⟩ := exists_queueId hA hhex hlen hq
    have hsigned := signedSection_eq_ok (A.toB (.str msg)) hqid hs hts hmt
    have hunpack := unpack_signedSection hA kp rnd hqid hl hs hts hmt hsigned
    have hpack : packFieldsAsync A kp rnd now ⟨q, s, some ts, mt, some (.str msg)⟩ =
        .ok (assemble A kp rnd (qid ++ BigEndian.toBytes seqNoLen s.toNat ++
          BigEndian.toBytes timestampLen ts.toNat ++ BigEndian.toBytes msgTypeLen mt.toNat ++
          A.toB (.str msg))) := by
      simp only [packFieldsAsync, hlen, Option.getD_some, hsigned]
      rfl
    rw [hutf, htoH] at hunpack
    exact ⟨_, _, (packFields_eq_packFieldsAsync hA kp rnd now _).trans hpack, hpack, hunpack,
      (unpackAsync_eq A _).trans hunpack, rfl, rfl, rfl, rfl, Int.toNat_of_nonneg hmt.1, rfl⟩
  · intro payload p h
    rw [unpackAsync_eq, or_self] at h
    have hacc := unpack_spec h
    refine ⟨hacc.length_le, hacc.verified, ?_⟩
    rintro ⟨s, hs⟩
    have hmsg := hacc.msg
    have hs' : (payload.drop signedMsgOffset).drop msgOffset = A.toB (.str s) := hs
    rw [hs', hutf, Except.ok.injEq] at hmsg
    exact hacc.serialize hA (by rw [hs', hmsg])

theorem layout_round_trip_hi : ∃ out p,
    packFields concreteUtf8 7 0 0 ⟨Concrete.queueId 'a', 5, some 1000, 1, some (.str "hi")⟩ =
        .ok out ∧
      packFieldsAsync concreteUtf8 7 0 0
        ⟨Concrete.queueId 'a', 5, some 1000, 1, some (.str "hi")⟩ = .ok out ∧
      unpack concreteUtf8 out = .ok (some p) ∧ unpackAsync concreteUtf8 out = .ok (some p) ∧
      p.srcPkHex = concreteUtf8.pkHex 7 ∧ p.queueIdHex = Concrete.queueId 'a' ∧ p.seqNo = 5 ∧
      p.timestamp = 1000 ∧ p.msgType = (1 : ℤ) ∧ p.msg = "hi" := by
  have hq : IsLowercaseHex (Concrete.queueId 'a') := by
    intro c hc
    rw [Concrete.queueId, String.toList_ofList] at hc
    rw [List.eq_of_mem_replicate hc]
    decide
  exact (layout_round_trip concreteUtf8 concreteUtf8_lawful (fun _ => rfl)
      fun _ => Concrete.toS_toUTF8 _).1 7 0 0 _ 5 1000 1 "hi"
    (by decide +kernel) hq (by decide) (by decide) (by decide)

end AppPacket

/-- How `to_s` treats bytes that are not text: it raises, or leaves them out. -/
inductive Decoding | strict | ignore
  deriving DecidableEq, Repr

def IsUtf8 (b : Bytes) : Prop := (String.fromUTF8? ⟨b.toArray⟩).isSome

instance (b : Bytes) : Decidable (IsUtf8 b) := inferInstanceAs (Decidable (_ = true))

/-- `to_s` is UTF-8 decoding. -/
def Aio.Decodes (A : Aio KP) : Decoding → Prop
  | .strict => ∀ b, (∃ s, A.toS b = .ok s) ↔ IsUtf8 b
  | .ignore => ∀ b, ∃ s, A.toS b = .ok s

/-- `to_s` reads the bytes as a text for which `to_b` gives the same bytes. -/
def Aio.ReadsBack (A : Aio KP) (b : Bytes) : Prop := ∃ s, A.toS b = .ok s ∧ A.toB (.str s) = b

/-- A payload is unpacked, by either method, to a message with exactly these bytes. -/
def ArrivesAs (A : Aio KP) (payload b : Bytes) : Prop :=
  (∃ p, AppPacket.unpack A payload = .ok (some p) ∧ A.toB (.str p.msg) = b) ∧
    ∃ p, AppPacket.unpackAsync A payload = .ok (some p) ∧ A.toB (.str p.msg) = b

/-- Unpacking, by either method, gives a packet or nothing. -/
def UnpacksQuietly (A : Aio KP) (payload : Bytes) : Prop :=
  (∃ o, AppPacket.unpack A payload = .ok o) ∧ ∃ o, AppPacket.unpackAsync A payload = .ok o

section Binary

open MQTTClient Exec

variable {A : Aio KP} {c : MQTTClient KP} {payload b : Bytes}

theorem packed_of_queueMsg (hA : A.Lawful) {rnd : ℕ} {now : ℚ} {msg : PyMsg} {dest q : String}
    {t : MsgEnum} {seqNo : Option ℤ} {x : Queued}
    (hx : x ∈ (final (queueMsg A rnd now msg dest q t seqNo c)).queued) (hnew : x ∉ c.queued) :
    ∃ kp s signed, AppPacket.Signed A now ⟨q, s, t, msg⟩ (A.toB msg) signed ∧
      x.out = AppPacket.assemble A kp rnd signed := by
  have hens : (({ c with lastSend := some now } : MQTTClient KP).ensureQueue t q).queued =
      c.queued := by
    rw [ensureQueue]
    split_ifs <;> rfl
  simp only [queueMsg, orderedAckSend, bind_apply, modify_apply] at hx
  obtain ⟨e, h, -⟩ | ⟨d, h, -, -, hs, -⟩ :=
    orderedAckSendBegin_spec (A := A) now msg dest q t seqNo { c with lastSend := some now }
  · rw [h] at hx
    exact absurd hx hnew
  · have hd : d.queued = c.queued := hs.queued.trans hens
    rw [h] at hx
    simp only [get_apply, ofExcept_apply] at hx
    cases hk : AppPacket.pack A d.kp rnd now ⟨q, seqNo.getD
        (({ c with lastSend := some now } : MQTTClient KP).nextSeqNo t q), t, msg⟩ with
    | error e =>
      rw [hk] at hx
      exact absurd (hd ▸ hx) hnew
    | ok out =>
      rw [hk] at hx
      simp only at hx
      obtain ⟨signed, hsigned, hout⟩ := AppPacket.pack_eq_ok hA hk
      obtain ⟨-, h'⟩ | ⟨m, -, h'⟩ | ⟨dq, -, -, h'⟩ :=
        orderedAckSendEnd_spec now msg dest q t (seqNo.getD
          (({ c with lastSend := some now } : MQTTClient KP).nextSeqNo t q)) out d
      · rw [h'] at hx
        exact absurd (hd ▸ hx) hnew
      · rw [h'] at hx
        exact absurd (hd ▸ hx) hnew
      · rw [h'] at hx
        rcases List.mem_append.mp hx with hx | hx
        · exact absurd (hd ▸ hx) hnew
        · rw [List.mem_singleton.mp hx]
          exact ⟨_, _, signed, hsigned, hout⟩

theorem arrivesAs_iff (hA : A.Lawful) {kp : KP} {rnd : ℕ} {now : ℚ} {d : Draft} {signed : Bytes}
    (h : AppPacket.Signed A now d b signed) :
    ArrivesAs A (AppPacket.assemble A kp rnd signed) b ↔ A.ReadsBack b := by
  rw [ArrivesAs, AppPacket.unpackAsync_eq, and_self]
  constructor
  · rintro ⟨p, hp, hb⟩
    rcases h.unpack hA kp rnd with ⟨e, -, he⟩ | ⟨p', hp', hmsg⟩
    · cases hp.symm.trans he
    · cases hp.symm.trans hp'
      exact ⟨p.msg, hmsg, hb⟩
  · rintro ⟨s, hs, hb⟩
    rcases h.unpack hA kp rnd with ⟨e, he, -⟩ | ⟨p, hp, hmsg⟩
    · cases he.symm.trans hs
    · rw [hs, Except.ok.injEq] at hmsg
      exact ⟨p, hp, by rw [← hmsg, hb]⟩

theorem unpacksQuietly_iff (payload : Bytes) : UnpacksQuietly A payload ↔
    (142 ≤ payload.length → A.verify (payload.take 33) (slice 33 64 payload) (payload.drop 97) =
      true → ∃ msg, A.toS ((payload.drop 97).drop 45) = .ok msg) := by
  rw [UnpacksQuietly, AppPacket.unpackAsync_eq, and_self, AppPacket.unpack]
  by_cases hlen : payload.length < 142
  · have hlen' : payload.length < minPacketLen := hlen
    rw [if_pos hlen']
    exact ⟨fun _ h => absurd hlen (not_lt.mpr h), fun _ => ⟨none, rfl⟩⟩
  · have hlen' : ¬ payload.length < minPacketLen := hlen
    rw [if_neg hlen']
    cases A.verify (payload.take srcPkLen) (slice sigOffset sigLen payload)
        (payload.drop signedMsgOffset) with
    | false =>
      rw [if_pos rfl]
      exact ⟨fun _ _ h => Bool.noConfusion h, fun _ => ⟨none, rfl⟩⟩
    | true =>
      rw [if_neg (by simp)]
      cases A.toS ((payload.drop signedMsgOffset).drop msgOffset) with
      | error e =>
        constructor
        · rintro ⟨o, ho⟩
          cases ho
        · intro h
          obtain ⟨msg, hmsg⟩ := h (not_lt.mp hlen) rfl
          cases hmsg
      | ok msg => exact ⟨fun _ _ _ => ⟨msg, rfl⟩, fun _ => ⟨_, rfl⟩⟩

/-- A binary message queued by `queue_msg` arrives exactly if it reads back, and a payload is
unpacked without an error exactly if it is refused, or its message is UTF-8, or `to_s` leaves out
what is not. -/
theorem binary_intact_iff (A : Aio KP) (hA : A.Lawful) (decoding : Decoding)
    (hdec : A.Decodes decoding) :
    (∀ (c : MQTTClient KP) (rnd : ℕ) (now : ℚ) (b : Bytes) (dest q : String) (t : MsgEnum)
      (seqNo : Option ℤ) (x : Queued),
      x ∈ (final (queueMsg A rnd now (.bytes b) dest q t seqNo c)).queued → x ∉ c.queued →
      (ArrivesAs A x.out b ↔ A.ReadsBack b)) ∧
    ∀ payload : Bytes, UnpacksQuietly A payload ↔
      payload.length < 142 ∨
        A.verify (payload.take 33) (slice 33 64 payload) (payload.drop 97) = false ∨
        IsUtf8 ((payload.drop 97).drop 45) ∨ decoding = .ignore := by
  constructor
  · intro c rnd now b dest q t seqNo x hx hnew
    obtain ⟨kp, s, signed, hsigned, hout⟩ := packed_of_queueMsg hA hx hnew
    rw [hA.toB_bytes] at hsigned
    rw [hout]
    exact arrivesAs_iff hA hsigned
  · intro payload
    rw [unpacksQuietly_iff]
    have htext : (∃ msg, A.toS ((payload.drop 97).drop 45) = .ok msg) ↔
        IsUtf8 ((payload.drop 97).drop 45) ∨ decoding = .ignore := by
      cases decoding with
      | strict => rw [hdec _, or_iff_left (by decide)]
      | ignore => exact ⟨fun _ => Or.inr rfl, fun _ => hdec _⟩
    rw [htext, ← Bool.not_eq_true, ← not_le]
    tauto

theorem toNat_ofNat_ascii : ∀ n < 128, (Char.ofNat n).toNat = n := by decide

/-- Where `to_b` encodes ASCII and leaves out the rest, ASCII bytes read back and no others. -/
theorem Aio.Lawful.readsBack_iff (hA : A.Lawful)
    (hB : ∀ s, A.toB (.str s) = Concrete.toB (.str s)) :
    A.ReadsBack b ↔ ∀ x ∈ b, x.toNat < 128 := by
  constructor
  · rintro ⟨s, -, rfl⟩ x hx
    rw [hB, Concrete.toB] at hx
    obtain ⟨c, hc, rfl⟩ := List.mem_map.mp hx
    have hlt : c.toNat < 128 := of_decide_eq_true (List.mem_filter.mp hc).2
    rw [UInt8.toNat_ofNat_of_lt' (by simp only [UInt8.size]; omega)]
    exact hlt
  · intro hb
    have hchar : ∀ x ∈ b, (Char.ofNat x.toNat).toNat = x.toNat := fun x hx =>
      toNat_ofNat_ascii x.toNat (hb x hx)
    have hascii : ∀ c ∈ b.map fun x => Char.ofNat x.toNat, c.toNat < 128 := by
      intro c hc
      obtain ⟨x, hx, rfl⟩ := List.mem_map.mp hc
      rw [hchar x hx]
      exact hb x hx
    have htext : A.toB (.str (String.ofList (b.map fun x => Char.ofNat x.toNat))) = b := by
      rw [hB, Concrete.toB, String.toList_ofList, List.filter_eq_self.mpr (by simpa using hascii),
        List.map_map]
      refine (List.map_congr_left fun x hx => ?_).trans (List.map_id b)
      rw [Function.comp_apply, hchar x hx, UInt8.ofNat_toNat, id]
    have hread := hA.toS_toB (s := String.ofList (b.map fun x => Char.ofNat x.toNat))
      (by rw [hA.isAscii_eq, String.toList_ofList]; simpa using hascii)
    rw [htext] at hread
    exact ⟨_, hread, htext⟩

theorem concrete_decodes_strict : concrete.Decodes .strict := by
  intro b
  rw [IsUtf8]
  cases hs : String.fromUTF8? ⟨b.toArray⟩ <;> simp [concrete, Concrete.toS, hs]

/-- `b"hi"` is queued and arrives, and the payload that carries it is unpacked. -/
theorem binary_intact_iff_hi : ∃ x,
    (final (queueMsg concrete 0 0 (.bytes [0x68, 0x69]) (concrete.pkHex 1) (Concrete.queueId 'a') .msg
      none (MQTTClient.init 0 HandlerSet.empty))).queued = [x] ∧
    ArrivesAs concrete x.out [0x68, 0x69] ∧ UnpacksQuietly concrete x.out := by
  have h : ((final (queueMsg concrete 0 0 (.bytes [0x68, 0x69]) (concrete.pkHex 1)
      (Concrete.queueId 'a') .msg none (MQTTClient.init 0 HandlerSet.empty))).queued.map
        fun x => (x.out.drop 97).drop 45) = [[0x68, 0x69]] := by
    decide +kernel
  obtain ⟨x, hx, hbody⟩ := List.map_eq_singleton_iff.mp h
  obtain ⟨hqueued, hquiet⟩ := binary_intact_iff concrete concrete_lawful .strict
    concrete_decodes_strict
  refine ⟨x, hx, ?_, ?_⟩
  · exact (hqueued _ 0 0 [0x68, 0x69] _ _ .msg none x (by rw [hx]; exact List.mem_singleton_self x)
      (by simp [MQTTClient.init])).mpr ((concrete_lawful.readsBack_iff fun _ => rfl).mpr (by simp))
  · exact (hquiet x.out).mpr (Or.inr (Or.inr (Or.inl (by rw [hbody]; decide +kernel))))

/-- The byte `0xff` is queued, and its receiver raises on it; the bytes of a letter with an accent
are unpacked to a text whose `to_b` is empty. -/
theorem binary_not_intact : (∃ x,
    (final (queueMsg concrete 0 0 (.bytes [0xff]) (concrete.pkHex 1) (Concrete.queueId 'a') .msg
      none (MQTTClient.init 0 HandlerSet.empty))).queued = [x] ∧
    AppPacket.unpack concrete x.out = .error .unicodeDecodeError ∧
    ¬ ArrivesAs concrete x.out [0xff] ∧ ¬ UnpacksQuietly concrete x.out) ∧
    ∃ x, (final (queueMsg concrete 0 0 (.bytes [0xc3, 0xa9]) (concrete.pkHex 1)
      (Concrete.queueId 'a') .msg none (MQTTClient.init 0 HandlerSet.empty))).queued = [x] ∧
      (AppPacket.unpack concrete x.out).map (Option.map fun p => concrete.toB (.str p.msg)) =
        .ok (some []) ∧ ¬ ArrivesAs concrete x.out [0xc3, 0xa9] := by
  have h : (final (queueMsg concrete 0 0 (.bytes [0xff]) (concrete.pkHex 1)
      (Concrete.queueId 'a') .msg none (MQTTClient.init 0 HandlerSet.empty))).queued.map
        (fun x => AppPacket.unpack concrete x.out) = [.error .unicodeDecodeError] := by
    decide +kernel
  have h' : (final (queueMsg concrete 0 0 (.bytes [0xc3, 0xa9]) (concrete.pkHex 1)
      (Concrete.queueId 'a') .msg none (MQTTClient.init 0 HandlerSet.empty))).queued.map
        (fun x => (AppPacket.unpack concrete x.out).map
          (Option.map fun p => concrete.toB (.str p.msg))) = [.ok (some [])] := by
    decide +kernel
  obtain ⟨x, hx, herr⟩ := List.map_eq_singleton_iff.mp h
  obtain ⟨y, hy, hempty⟩ := List.map_eq_singleton_iff.mp h'
  refine ⟨⟨x, hx, herr, ?_, ?_⟩, y, hy, hempty, ?_⟩
  · rintro ⟨⟨p, hp, -⟩, -⟩
    cases herr.symm.trans hp
  · rintro ⟨⟨o, ho⟩, -⟩
    cases herr.symm.trans ho
  · rintro ⟨⟨p, hp, hb⟩, -⟩
    rw [hp] at hempty
    simp only [Except.map, Option.map, hb, Except.ok.injEq, Option.some.injEq] at hempty
    cases hempty

end Binary

end Sidewire
