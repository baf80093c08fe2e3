import Sidewire.Mqtt.AppPacket

/-! # The borrowed functions, concretely

Text and hexadecimal as the real functions compute them, a hash that is the hex
of its input, and a signature that spells out the key and the signed bytes. The
concrete functions keep every promise made of the borrowed ones, so runs of the
model can be evaluated with them.
-/

namespace Sidewire

namespace Concrete

def hexDigit (n : ℕ) : Char := if n < 10 then Char.ofNat (48 + n) else Char.ofNat (87 + n)

def hexValue (c : Char) : Option ℕ :=
  if 48 ≤ c.toNat ∧ c.toNat < 58 then some (c.toNat - 48)
  else if 97 ≤ c.toNat ∧ c.toNat < 103 then some (c.toNat - 87)
  else if 65 ≤ c.toNat ∧ c.toNat < 71 then some (c.toNat - 55)
  else none

def toHexChars (b : Bytes) : List Char :=
  b.flatMap fun x => [hexDigit (x.toNat / 16), hexDigit (x.toNat % 16)]

def ofHexChars : List Char → Option Bytes
  | [] => some []
  | [_] => none
  | a :: b :: cs =>
    match hexValue a, hexValue b, ofHexChars cs with
    | some x, some y, some bs => some (UInt8.ofNat (x * 16 + y) :: bs)
    | _, _, _ => none

/-- `x.encode("ascii", errors="ignore")`: what is not ASCII is left out. -/
def toB : PyMsg → Bytes
  | .str s => (s.toList.filter fun c => c.toNat < 128).map fun c => UInt8.ofNat c.toNat
  | .bytes b => b

def toS (b : Bytes) : Except PyExc String :=
  match String.fromUTF8? ⟨b.toArray⟩ with
  | some s => .ok s
  | none => .error .unicodeDecodeError

/-- Key pairs are numbered; the number is the last byte of the public key. -/
def publicKey (kp : ℕ) : Bytes := 2 :: (List.replicate 31 0 ++ [UInt8.ofNat kp])

def signature (pk m : Bytes) : Bytes := ((pk ++ m) ++ List.replicate 64 0).take 64

/-- Mistakes of the program are raised again. -/
def asyncWrapErrors : PyExc → Bool
  | .attributeError _ | .typeError _ => false
  | _ => true

end Concrete

open Concrete in
def concrete : Aio ℕ where
  toB := Concrete.toB
  toS := Concrete.toS
  toH b := String.ofList (toHexChars b)
  hToB s :=
    match ofHexChars s.toList with
    | some b => .ok b
    | none => .error (.valueError "non-hexadecimal number found")
  isAscii s := s.toList.all fun c => c.toNat < 128
  sha256Hex b := String.ofList (toHexChars b)
  compactPublicKey := publicKey
  sign kp _ m := signature (publicKey kp) m
  verify pk sig m := sig = signature pk m
  asyncWrapErrors := Concrete.asyncWrapErrors

namespace Concrete

theorem hexValue_hexDigit : ∀ n < 16, hexValue (hexDigit n) = some n := by decide

theorem hexDigit_ascii : ∀ n < 16, (hexDigit n).toNat < 128 := by decide

theorem ofHexChars_toHexChars (b : Bytes) : ofHexChars (toHexChars b) = some b := by
  induction b with
  | nil => rfl
  | cons x b ih =>
    have hx : x.toNat < 256 := x.toNat_lt
    have h₁ := hexValue_hexDigit (x.toNat / 16) (by omega)
    have h₂ := hexValue_hexDigit (x.toNat % 16) (by omega)
    have h₃ : x.toNat / 16 * 16 + x.toNat % 16 = x.toNat := by omega
    change ofHexChars (hexDigit (x.toNat / 16) :: hexDigit (x.toNat % 16) :: toHexChars b) = _
    simp only [ofHexChars, h₁, h₂, ih, h₃, UInt8.ofNat_toNat]

theorem length_ofHexChars : ∀ {cs : List Char} {b : Bytes}, ofHexChars cs = some b →
    cs.length = 2 * b.length
  | [], b, h => by simp [ofHexChars] at h; simp [← h]
  | [_], b, h => by simp [ofHexChars] at h
  | x :: y :: cs, b, h => by
      unfold ofHexChars at h
      split at h
      · rename_i hb
        cases h
        simp [length_ofHexChars hb]; omega
      · cases h

theorem length_toHexChars (b : Bytes) : (toHexChars b).length = 2 * b.length :=
  length_ofHexChars (ofHexChars_toHexChars b)

theorem utf8EncodeChar_of_lt {c : Char} (h : c.toNat < 128) :
    String.utf8EncodeChar c = [UInt8.ofNat c.toNat] :=
  if_pos (Nat.lt_succ_iff.mp h)

theorem toB_eq_toUTF8 {s : String} (h : (s.toList.all fun c => c.toNat < 128) = true) :
    toB (.str s) = s.toUTF8.data.toList := by
  have hall : ∀ c ∈ s.toList, c.toNat < 128 := by simpa using h
  have hs : s.toUTF8.data.toList = s.toList.flatMap String.utf8EncodeChar := by
    rw [show s.toUTF8 = s.toList.utf8Encode from String.utf8Encode_toList.symm]
    simp [List.utf8Encode]
  rw [hs, toB, List.filter_eq_self.mpr (by simpa using hall)]
  generalize s.toList = cs at hall
  induction cs with
  | nil => rfl
  | cons c cs ih =>
    rw [List.map_cons, List.flatMap_cons, ih fun c hc => hall c (List.mem_cons_of_mem _ hc),
      utf8EncodeChar_of_lt (hall c List.mem_cons_self)]
    rfl

theorem toS_toUTF8 (s : String) : toS s.toUTF8.data.toList = .ok s := by
  have h : (⟨s.toUTF8.data.toList.toArray⟩ : ByteArray) = s.toUTF8 := by simp
  have hs : s.toUTF8.IsValidUTF8 := s.isValidUTF8
  rw [toS, h, String.fromUTF8?, dif_pos hs]
  rfl

theorem isAscii_toHexChars (b : Bytes) : (toHexChars b).all (fun c => c.toNat < 128) = true := by
  rw [List.all_eq_true]
  intro c hc
  obtain ⟨x, -, hx⟩ := List.mem_flatMap.mp hc
  have hx256 : x.toNat < 256 := x.toNat_lt
  simp only [List.mem_cons, List.not_mem_nil, or_false] at hx
  rcases hx with rfl | rfl
  · exact decide_eq_true (hexDigit_ascii _ (by omega))
  · exact decide_eq_true (hexDigit_ascii _ (by omega))

end Concrete

open Concrete in
theorem concrete_lawful : concrete.Lawful where
  toB_empty := by decide +kernel
  toB_bytes _ := rfl
  toS_toB h := (congrArg toS (toB_eq_toUTF8 h)).trans (toS_toUTF8 _)
  length_toH b := by simp [concrete, length_toHexChars]
  hToB_toH b := by simp [concrete, ofHexChars_toHexChars]
  length_hToB := by
    intro s b h
    simp only [concrete] at h
    split at h
    · rename_i hb
      cases h
      exact String.length_toList.symm.trans (length_ofHexChars hb)
    · cases h
  isAscii_eq _ := rfl
  isAscii_toH b := by
    change (String.ofList (toHexChars b)).toList.all _ = true
    rw [String.toList_ofList]
    exact isAscii_toHexChars b
  length_compactPublicKey kp := by simp [concrete, publicKey]
  length_sign kp r m := by
    simp only [concrete, signature, List.length_take, List.length_append, List.length_replicate]
    omega
  verify_sign kp r m := by simp [concrete]

/-- The same, with `to_b` as UTF-8. -/
def concreteUtf8 : Aio ℕ :=
  { concrete with
    toB := fun
      | .str s => s.toUTF8.data.toList
      | .bytes b => b }

theorem concreteUtf8_lawful : concreteUtf8.Lawful :=
  { concrete_lawful with
    toB_empty := rfl
    toB_bytes := fun _ => rfl
    toS_toB := fun _ => Concrete.toS_toUTF8 _ }

namespace Concrete

def queueId (c : Char) : String := String.ofList (List.replicate 64 c)

def signedBy (kp : ℕ) (now : ℚ) (q : String) (s : ℤ) (t : MsgEnum) (msg : String) : Bytes :=
  match AppPacket.pack concrete kp 0 now ⟨q, s, t, .str msg⟩ with
  | .ok out => out
  | .error _ => []

def packet (kp : ℕ) (now : ℚ) (q : String) (s : ℤ) (t : MsgEnum) (msg : String) : AppPacket where
  srcPkHex := concrete.pkHex kp
  sigHex := concrete.toH (slice sigOffset sigLen (signedBy kp now q s t msg))
  queueIdHex := q
  seqNo := s
  timestamp := pyInt now
  msgType := t.value
  msg := msg

end Concrete

end Sidewire
