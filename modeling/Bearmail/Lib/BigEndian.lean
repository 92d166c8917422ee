import Mathlib.Data.Nat.ModEq
import Mathlib.Tactic.Ring

/-!
# Big-endian numbers

A number in a fixed count of bytes with the most significant one first, and the laws of the round trip in
both directions.
-/

namespace BigEndian

def toBytes : Nat → Nat → List UInt8
  | 0, _ => []
  | width + 1, n => UInt8.ofNat (n / 256 ^ width) :: toBytes width n

def ofBytes : List UInt8 → Nat
  | [] => 0
  | b :: bs => b.toNat * 256 ^ bs.length + ofBytes bs

@[simp] theorem length_toBytes (width n : Nat) : (toBytes width n).length = width := by
  induction width with
  | zero => rfl
  | succ width ih => simp [toBytes, ih]

theorem ofBytes_lt (bs : List UInt8) : ofBytes bs < 256 ^ bs.length := by
  induction bs with
  | nil => simp [ofBytes]
  | cons b bs ih =>
    have hb : b.toNat + 1 ≤ 256 := b.toNat_lt
    calc ofBytes (b :: bs) < b.toNat * 256 ^ bs.length + 256 ^ bs.length := by
          simp only [ofBytes]; omega
      _ = (b.toNat + 1) * 256 ^ bs.length := by ring
      _ ≤ 256 * 256 ^ bs.length := Nat.mul_le_mul_right _ hb
      _ = 256 ^ (b :: bs).length := by rw [List.length_cons, pow_succ, mul_comm]

theorem ofBytes_toBytes (width n : Nat) : ofBytes (toBytes width n) = n % 256 ^ width := by
  induction width with
  | zero => simp [toBytes, ofBytes, Nat.mod_one]
  | succ width ih =>
    have hbyte : (UInt8.ofNat (n / 256 ^ width)).toNat = n / 256 ^ width % 256 := by simp
    rw [toBytes, ofBytes, length_toBytes, ih, hbyte, pow_succ, Nat.mod_mul]
    ring

theorem ofBytes_toBytes_of_lt {width n : Nat} (h : n < 256 ^ width) :
    ofBytes (toBytes width n) = n := by
  rw [ofBytes_toBytes, Nat.mod_eq_of_lt h]

theorem toBytes_mul_add (width k n : Nat) : toBytes width (k * 256 ^ width + n) = toBytes width n := by
  induction width generalizing k with
  | zero => rfl
  | succ width ih =>
    have hsplit : k * 256 ^ (width + 1) + n = k * 256 * 256 ^ width + n := by ring
    have hdigit : (k * 256 * 256 ^ width + n) / 256 ^ width = k * 256 + n / 256 ^ width := by
      rw [add_comm, Nat.add_mul_div_right _ _ (Nat.pow_pos (by decide)), add_comm]
    rw [toBytes, toBytes, hsplit, ih, hdigit]
    simp

theorem toBytes_ofBytes (bs : List UInt8) : toBytes bs.length (ofBytes bs) = bs := by
  induction bs with
  | nil => rfl
  | cons b bs ih =>
    have hdigit : (b.toNat * 256 ^ bs.length + ofBytes bs) / 256 ^ bs.length = b.toNat := by
      rw [add_comm, Nat.add_mul_div_right _ _ (Nat.pow_pos (by decide)), Nat.div_eq_of_lt (ofBytes_lt bs),
        zero_add]
    rw [List.length_cons, toBytes, ofBytes, toBytes_mul_add, ih, hdigit, UInt8.ofNat_toNat]

end BigEndian
