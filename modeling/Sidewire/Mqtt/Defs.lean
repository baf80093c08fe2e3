import Mathlib.Data.Rat.Floor
import Mathlib.Tactic

/-! # Messages, exceptions and the borrowed functions

The enumerations of `mqtt_defs`, Python's exceptions and text or byte messages,
and the functions of `aionetiface`, `ecdsa` and `hashlib` that the package
calls. The borrowed functions are parameters, with their documented behaviour
collected in one structure.
-/

namespace Sidewire

abbrev Bytes := List UInt8

inductive PyMsg
  | str (s : String)
  | bytes (b : Bytes)
  deriving DecidableEq, Repr

def PyMsg.truthy : PyMsg → Bool
  | .str s => s ≠ ""
  | .bytes b => b ≠ []

inductive PyExc
  | valueError (text : String)
  | keyError (key : String)
  | indexError
  | structError
  | assertionError (text : String)
  | attributeError (text : String)
  | typeError (text : String)
  | osError (text : String)
  | overflowError (text : String)
  | runtimeError (text : String)
  | unicodeDecodeError
  deriving DecidableEq, Repr

inductive MsgEnum
  | msg
  | msgack
  | probe
  deriving DecidableEq, Repr

namespace MsgEnum

def value : MsgEnum → ℕ
  | msg => 1
  | msgack => 2
  | probe => 3

/-- The keys of `msg_queues`, in the order `MQTTClient.__init__` inserts them. -/
def order : List MsgEnum := [msg, msgack, probe]

theorem value_injective : Function.Injective value := by
  intro a b h; cases a <;> cases b <;> simp_all [value]

end MsgEnum

inductive AckType
  | suback
  | puback
  deriving DecidableEq, Repr

/-- Python's `int()` on a clock value: truncation towards zero. -/
def pyInt (t : ℚ) : ℤ := if 0 ≤ t then ⌊t⌋ else ⌈t⌉

theorem pyInt_of_nonneg {t : ℚ} (h : 0 ≤ t) : pyInt t = ⌊t⌋ := if_pos h

/-- The functions the package imports. A key pair is an element of `KP`; signing takes the
random nonce of ECDSA, and `verify` is false where the library raises one of the errors
`unpack` catches. `asyncWrapErrors` tells which errors `async_wrap_errors` logs; it raises the
others again. -/
structure Aio (KP : Type) where
  toB : PyMsg → Bytes
  toS : Bytes → Except PyExc String
  toH : Bytes → String
  hToB : String → Except PyExc Bytes
  isAscii : String → Bool
  sha256Hex : Bytes → String
  compactPublicKey : KP → Bytes
  sign : KP → ℕ → Bytes → Bytes
  verify : Bytes → Bytes → Bytes → Bool
  asyncWrapErrors : PyExc → Bool

namespace Aio

variable {KP : Type}

def pkHex (A : Aio KP) (kp : KP) : String := A.toH (A.compactPublicKey kp)

def msgHash (A : Aio KP) (msg : String) : String := A.sha256Hex (A.toB (.str msg))

/-- What the borrowed functions promise: ASCII text comes back from bytes, keys are 33 bytes in
lowercase hex, and signatures have 64 bytes and verify under the signer's key. Nothing is said of
the bytes of text that is not ASCII, nor of the errors that are logged. -/
structure Lawful (A : Aio KP) : Prop where
  toB_empty : A.toB (.str "") = []
  toB_bytes : ∀ b, A.toB (.bytes b) = b
  toS_toB : ∀ {s}, A.isAscii s = true → A.toS (A.toB (.str s)) = .ok s
  length_toH : ∀ b, (A.toH b).length = 2 * b.length
  hToB_toH : ∀ b, A.hToB (A.toH b) = .ok b
  length_hToB : ∀ {s b}, A.hToB s = .ok b → s.length = 2 * b.length
  isAscii_eq : ∀ s, A.isAscii s = s.toList.all fun c => c.toNat < 128
  isAscii_toH : ∀ b, A.isAscii (A.toH b) = true
  length_compactPublicKey : ∀ kp, (A.compactPublicKey kp).length = 33
  length_sign : ∀ kp r m, (A.sign kp r m).length = 64
  verify_sign : ∀ kp r m, A.verify (A.compactPublicKey kp) (A.sign kp r m) m = true

variable {A : Aio KP}

theorem Lawful.toB_of_not_truthy (hA : A.Lawful) {m : PyMsg} (h : m.truthy = false) :
    A.toB m = [] := by
  cases m with
  | str s =>
    obtain rfl : s = "" := by simpa [PyMsg.truthy] using h
    exact hA.toB_empty
  | bytes b =>
    obtain rfl : b = [] := by simpa [PyMsg.truthy] using h
    exact hA.toB_bytes []

theorem Lawful.toS_toB_ack (hA : A.Lawful) : A.toS (A.toB (.str "ack")) = .ok "ack" :=
  hA.toS_toB (by rw [hA.isAscii_eq]; decide)

theorem Lawful.toB_injective (hA : A.Lawful) {s t : String} (hs : A.isAscii s = true)
    (ht : A.isAscii t = true) (h : A.toB (.str s) = A.toB (.str t)) : s = t := by
  have hts := hA.toS_toB ht
  rw [← h, hA.toS_toB hs] at hts
  exact Except.ok.inj hts

end Aio

end Sidewire
