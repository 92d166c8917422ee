import Bearmail.Lib.Leb128

/-!
# LEB128 of the integer types

`utils/src/codec/leb128.rs`: the macro gives each type the shifts for its bytes. A `u8` has one, but takes two
bytes from 128 on.
-/

namespace Bearmail.Utils

open List Leb128

inductive Leb128Int where
  | u8 | u16 | u32 | u64 | usize
  deriving DecidableEq

namespace Leb128Int

def bits : Leb128Int → Nat
  | u8 => 8
  | u16 => 16
  | u32 => 32
  | u64 | usize => 64

def shifts : Leb128Int → List Nat
  | u8 => [0]
  | u16 => [0, 7, 14]
  | u32 => [0, 7, 14, 21, 28]
  | u64 | usize => [0, 7, 14, 21, 28, 35, 42, 49, 56, 63]

variable (t : Leb128Int)

/-- The bits of a byte at their place in the integer. -/
def shifted (byte : UInt8) (shift : Nat) : Nat := byte.toNat % 128 * 2 ^ shift % 2 ^ t.bits

def posLoop : List Nat → Nat → Nat → List UInt8 → Option (Nat × Nat)
  | shift :: shifts, pos, result, byte :: slice =>
    if byte.toNat < 128 then some (result ||| t.shifted byte shift, pos + 1)
    else posLoop shifts (pos + 1) (result ||| t.shifted byte shift) slice
  | _, _, _, _ => none

def fromLeb128BytesPos (slice : List UInt8) : Option (Nat × Nat) := t.posLoop t.shifts 0 0 slice

def bytesLoop : List Nat → Nat → List UInt8 → Option Nat
  | shift :: shifts, result, byte :: slice =>
    if byte.toNat < 128 then some (result ||| t.shifted byte shift)
    else bytesLoop shifts (result ||| t.shifted byte shift) slice
  | _, _, _ => none

def fromLeb128Bytes (slice : List UInt8) : Option Nat := t.bytesLoop t.shifts 0 slice

def itLoop : List Nat → Nat → List UInt8 → Option Nat × List UInt8
  | [], _, it => (none, it)
  | _ :: _, _, [] => (none, [])
  | shift :: shifts, result, byte :: it =>
    if byte.toNat < 128 then (some (result ||| t.shifted byte shift), it)
    else itLoop shifts (result ||| t.shifted byte shift) it

def fromLeb128It (it : List UInt8) : Option Nat × List UInt8 := t.itLoop t.shifts 0 it

theorem loops (shifts : List Nat) (pos result : Nat) (slice : List UInt8) :
    (decodeAt t.bits shifts result slice = none ∧ t.posLoop shifts pos result slice = none ∧
        t.bytesLoop shifts result slice = none ∧ (t.itLoop shifts result slice).1 = none) ∨
      ∃ v n, n ≤ slice.length ∧ decodeAt t.bits shifts result slice = some (v, slice.drop n) ∧
        t.posLoop shifts pos result slice = some (v, pos + n) ∧ t.bytesLoop shifts result slice = some v ∧
        t.itLoop shifts result slice = (some v, slice.drop n) := by
  induction shifts generalizing pos result slice with
  | nil => exact .inl ⟨rfl, rfl, rfl, rfl⟩
  | cons shift shifts ih =>
    cases slice with
    | nil => exact .inl ⟨rfl, rfl, rfl, rfl⟩
    | cons byte slice =>
      simp only [decodeAt, posLoop, bytesLoop, itLoop]
      split
      · exact .inr ⟨_, 1, by simp, rfl, rfl, rfl, rfl⟩
      · obtain hnone | ⟨v, n, hle, hdecode, hpos, hrest⟩ := ih (pos + 1) (result ||| t.shifted byte shift) slice
        · exact .inl hnone
        · exact .inr ⟨v, n + 1, Nat.succ_le_succ hle, hdecode, by rw [hpos, Nat.add_right_comm, Nat.add_assoc], hrest⟩

/-- The decoders give one value, and the iterator stands behind the bytes that are counted in the slice. -/
def Agree (bytes : List UInt8) : Prop :=
  t.fromLeb128Bytes bytes = (t.fromLeb128BytesPos bytes).map Prod.fst ∧
    t.fromLeb128Bytes bytes = (t.fromLeb128It bytes).1 ∧
    ∀ v n, t.fromLeb128BytesPos bytes = some (v, n) → (t.fromLeb128It bytes).2 = bytes.drop n

theorem agree (bytes : List UInt8) : t.Agree bytes := by
  obtain ⟨-, hpos, hbytes, hit⟩ | ⟨v, n, -, -, hpos, hbytes, hit⟩ := t.loops t.shifts 0 0 bytes
  · simp [Agree, fromLeb128Bytes, fromLeb128BytesPos, fromLeb128It, hpos, hbytes, hit]
  · simp [Agree, fromLeb128Bytes, fromLeb128BytesPos, fromLeb128It, hpos, hbytes, hit]

def RoundTrips (value : Nat) (rest : List UInt8) : Prop :=
  t.fromLeb128Bytes (encode value ++ rest) = some value ∧
    t.fromLeb128BytesPos (encode value ++ rest) = some (value, (encode value).length) ∧
    t.fromLeb128It (encode value ++ rest) = (some value, rest)

theorem roundTrips_iff {value : Nat} (h : value < 2 ^ t.bits) (rest : List UInt8) :
    t.RoundTrips value rest ↔ (t = u8 → value < 128) := by
  constructor
  · rintro ⟨hbytes, -⟩ rfl
    by_contra hlarge
    simp [encode_of_le (Nat.le_of_not_lt hlarge), fromLeb128Bytes, shifts, bytesLoop] at hbytes
    omega
  · intro hu8
    have hshifts : t.shifts = shiftsFrom 0 (t.shifts.length - 1 + 1) := by
      cases t <;> rfl
    have hlt : value < 128 ^ (t.shifts.length - 1 + 1) := by
      cases t with
      | u8 => exact hu8 rfl
      | u16 | u32 | u64 | usize => exact h.trans (by decide)
    have hfits : value * 2 ^ 0 < 2 ^ t.bits := by simpa using h
    have hdecode := decodeAt_encode rest (show 0 < 2 ^ 0 by decide) hfits hlt
    rw [← hshifts] at hdecode
    obtain ⟨hnone, -⟩ | ⟨v, n, hle, hsome, hpos, hbytes, hit⟩ := t.loops t.shifts 0 0 (encode value ++ rest)
    · cases hnone.symm.trans hdecode
    · obtain ⟨rfl, hrest⟩ : v = value ∧ (encode value ++ rest).drop n = rest := by
        simpa using hsome.symm.trans hdecode
      have hlength := congrArg length hrest
      rw [length_drop, length_append] at hlength
      rw [length_append] at hle
      obtain rfl : n = (encode v).length := by omega
      rw [Nat.zero_add] at hpos
      exact ⟨hbytes, hpos, hit.trans (by rw [hrest])⟩

theorem leb128_iff {value : Nat} (h : value < 2 ^ t.bits) (rest bytes : List UInt8) :
    (t.RoundTrips value rest ↔ (t = u8 → value < 128)) ∧ t.Agree bytes :=
  ⟨t.roundTrips_iff h rest, t.agree bytes⟩

theorem leb128_iff_u8 : (u8.RoundTrips 127 [] ↔ (u8 = u8 → 127 < 128)) ∧ u8.Agree [255, 255] :=
  leb128_iff u8 (by decide) [] _

theorem not_roundTrips_u8 : ¬u8.RoundTrips 128 [] := by
  rintro ⟨h, -⟩
  simp [encode_of_le, encode_of_lt, fromLeb128Bytes, shifts, bytesLoop] at h

end Leb128Int

end Bearmail.Utils
