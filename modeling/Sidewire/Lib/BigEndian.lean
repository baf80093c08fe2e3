import Mathlib.Data.List.Induction
import Mathlib.Tactic

/-! # Big-endian byte strings

Unsigned integers as fixed-width byte strings, most significant byte first.
Reading a value back gives it modulo the capacity of the width, so the two
directions are inverse below it.
-/

namespace BigEndian

def toBytes : ℕ → ℕ → List UInt8
  | 0, _ => []
  | k + 1, n => toBytes k (n / 256) ++ [UInt8.ofNat (n % 256)]

def ofBytes (bs : List UInt8) : ℕ := bs.foldl (fun n b => n * 256 + b.toNat) 0

@[simp] theorem length_toBytes (k n : ℕ) : (toBytes k n).length = k := by
  induction k generalizing n with
  | zero => rfl
  | succ k ih => simp [toBytes, ih]

theorem ofBytes_append_singleton (bs : List UInt8) (b : UInt8) :
    ofBytes (bs ++ [b]) = ofBytes bs * 256 + b.toNat := by
  simp [ofBytes]

theorem ofBytes_toBytes_mod (k n : ℕ) : ofBytes (toBytes k n) = n % 256 ^ k := by
  induction k generalizing n with
  | zero => simp [toBytes, ofBytes, Nat.mod_one]
  | succ k ih =>
    have hlt : n % 256 % 2 ^ 8 = n % 256 :=
      Nat.mod_eq_of_lt (by simpa using Nat.mod_lt n (show 0 < 256 by norm_num))
    rw [toBytes, ofBytes_append_singleton, ih, UInt8.toNat_ofNat', hlt, pow_succ', Nat.mod_mul]
    ring

theorem ofBytes_toBytes {k n : ℕ} (h : n < 256 ^ k) : ofBytes (toBytes k n) = n := by
  rw [ofBytes_toBytes_mod, Nat.mod_eq_of_lt h]

theorem ofBytes_lt (bs : List UInt8) : ofBytes bs < 256 ^ bs.length := by
  induction bs using List.reverseRecOn with
  | nil => simp [ofBytes]
  | append_singleton bs b ih =>
    rw [ofBytes_append_singleton, List.length_append, List.length_singleton, pow_succ]
    have := b.toNat_lt
    omega

theorem toBytes_ofBytes (bs : List UInt8) : toBytes bs.length (ofBytes bs) = bs := by
  induction bs using List.reverseRecOn with
  | nil => rfl
  | append_singleton bs b ih =>
    have hb : b.toNat < 256 := b.toNat_lt
    have hdiv : (ofBytes bs * 256 + b.toNat) / 256 = ofBytes bs := by omega
    have hmod : (ofBytes bs * 256 + b.toNat) % 256 = b.toNat := by omega
    rw [ofBytes_append_singleton, List.length_append, List.length_singleton, toBytes, hdiv, hmod,
      ih, UInt8.ofNat_toNat]

end BigEndian
