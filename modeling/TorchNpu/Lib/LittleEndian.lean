/-
  Little-endian byte strings.

  `leEncode n v` is the `n`-byte little-endian image of `v` (the low `8 n` bits, as a C++ program
  sees an object of `n` bytes on a little-endian host), and `leDecode` reads a byte string back.
  The two are mutually inverse up to reduction modulo `256 ^ n`.
-/
import Mathlib.Algebra.Order.Ring.Nat
import Mathlib.Tactic.Ring

namespace TorchNpu

/-- The `n` low bytes of `v`, least significant first. -/
def leEncode : ℕ → ℕ → List UInt8
  | 0, _ => []
  | n + 1, v => UInt8.ofNat v :: leEncode n (v / 256)

/-- The value of a byte string, least significant byte first. -/
def leDecode : List UInt8 → ℕ
  | [] => 0
  | b :: bs => b.toNat + 256 * leDecode bs

@[simp] theorem length_leEncode (n v : ℕ) : (leEncode n v).length = n := by
  induction n generalizing v with
  | zero => rfl
  | succ n ih => simp [leEncode, ih]

theorem leDecode_leEncode (n v : ℕ) : leDecode (leEncode n v) = v % 256 ^ n := by
  induction n generalizing v with
  | zero => simp [leEncode, leDecode, Nat.mod_one]
  | succ n ih =>
    have hb : (UInt8.ofNat v).toNat = v % 256 := by simp
    rw [leEncode, leDecode, ih, hb, pow_succ', Nat.mod_mul]

theorem leDecode_leEncode_of_lt {n v : ℕ} (h : v < 256 ^ n) : leDecode (leEncode n v) = v := by
  rw [leDecode_leEncode, Nat.mod_eq_of_lt h]

theorem leDecode_lt (bs : List UInt8) : leDecode bs < 256 ^ bs.length := by
  induction bs with
  | nil => simp [leDecode]
  | cons b bs ih =>
    have hb : b.toNat < 256 := b.toNat_lt
    rw [leDecode, List.length_cons, pow_succ']
    omega

/-- Re-encoding a decoded string gives the string back. -/
theorem leEncode_leDecode (bs : List UInt8) : leEncode bs.length (leDecode bs) = bs := by
  induction bs with
  | nil => rfl
  | cons b bs ih =>
    have hb : b.toNat < 256 := b.toNat_lt
    have hdiv : (b.toNat + 256 * leDecode bs) / 256 = leDecode bs := by omega
    have hhead : UInt8.ofNat (b.toNat + 256 * leDecode bs) = b := by
      apply UInt8.toNat_inj.mp
      rw [UInt8.toNat_ofNat']
      omega
    rw [List.length_cons, leEncode, leDecode, hdiv, ih, hhead]

end TorchNpu
