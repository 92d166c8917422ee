import Mathlib.Tactic.Ring

/-!
# LEB128

A number as bytes of seven bits each, the lowest first; the high bit is set on all but the last. The reader
puts the bits into a word of fixed width and gives up when there are more bytes than the word has room for.
-/

namespace Leb128

def encode (n : Nat) : List UInt8 :=
  if n < 128 then [UInt8.ofNat n] else UInt8.ofNat (n % 128 + 128) :: encode (n / 128)
termination_by n
decreasing_by omega

/-- The bits of a byte go to the next of the shifts. -/
def decodeAt (width : Nat) : List Nat → Nat → List UInt8 → Option (Nat × List UInt8)
  | [], _, _ => none
  | _ :: _, _, [] => none
  | shift :: shifts, result, byte :: bytes =>
    let result := result ||| byte.toNat % 128 * 2 ^ shift % 2 ^ width
    if byte.toNat < 128 then some (result, bytes) else decodeAt width shifts result bytes

def shiftsFrom (shift : Nat) : Nat → List Nat
  | 0 => []
  | count + 1 => shift :: shiftsFrom (shift + 7) count

def decode64 (bytes : List UInt8) : Option (Nat × List UInt8) :=
  decodeAt 64 [0, 7, 14, 21, 28, 35, 42, 49, 56, 63] 0 bytes

theorem encode_of_lt {n : Nat} (h : n < 128) : encode n = [UInt8.ofNat n] := by
  simp [encode, h]

theorem encode_of_le {n : Nat} (h : 128 ≤ n) :
    encode n = UInt8.ofNat (n % 128 + 128) :: encode (n / 128) := by
  rw [encode, if_neg (Nat.not_lt_of_ge h)]

theorem or_shifted {result shift width bits : Nat} (hresult : result < 2 ^ shift)
    (hfits : bits * 2 ^ shift < 2 ^ width) :
    result ||| bits * 2 ^ shift % 2 ^ width = result + bits * 2 ^ shift := by
  rw [Nat.mod_eq_of_lt hfits, Nat.or_comm, Nat.mul_comm, ← Nat.two_pow_add_eq_or_of_lt hresult,
    Nat.add_comm]

theorem decodeAt_encode {width : Nat} (rest : List UInt8) {count : Nat} :
    ∀ {n shift result : Nat}, result < 2 ^ shift → n * 2 ^ shift < 2 ^ width → n < 128 ^ (count + 1) →
      decodeAt width (shiftsFrom shift (count + 1)) result (encode n ++ rest) =
        some (result + n * 2 ^ shift, rest) := by
  have hlast : ∀ {n shift result count : Nat}, result < 2 ^ shift → n * 2 ^ shift < 2 ^ width →
      n < 128 → decodeAt width (shiftsFrom shift (count + 1)) result (encode n ++ rest) =
        some (result + n * 2 ^ shift, rest) := by
    intro n shift result count hresult hfits hn
    have hbyte : (UInt8.ofNat n).toNat = n := by rw [UInt8.toNat_ofNat']; omega
    simp [encode_of_lt hn, shiftsFrom, decodeAt, hbyte, hn, Nat.mod_eq_of_lt hn,
      or_shifted hresult hfits]
  induction count with
  | zero => exact fun hresult hfits hn => hlast hresult hfits (by omega)
  | succ count ih =>
    intro n shift result hresult hfits hn
    by_cases hsmall : n < 128
    · exact hlast hresult hfits hsmall
    · have hbyte : (UInt8.ofNat (n % 128 + 128)).toNat = n % 128 + 128 := by
        rw [UInt8.toNat_ofNat']
        omega
      have hshift : 2 ^ (shift + 7) = 128 * 2 ^ shift := by ring
      have hsplit : n * 2 ^ shift = n % 128 * 2 ^ shift + n / 128 * 2 ^ (shift + 7) := by
        calc n * 2 ^ shift = (n % 128 + 128 * (n / 128)) * 2 ^ shift := by rw [Nat.mod_add_div]
          _ = n % 128 * 2 ^ shift + n / 128 * (128 * 2 ^ shift) := by ring
          _ = n % 128 * 2 ^ shift + n / 128 * 2 ^ (shift + 7) := by rw [hshift]
      have hlow : result + n % 128 * 2 ^ shift < 2 ^ (shift + 7) := by
        have hbits : n % 128 * 2 ^ shift ≤ 127 * 2 ^ shift := Nat.mul_le_mul_right _ (by omega)
        omega
      have hhigh : n / 128 < 128 ^ (count + 1) := by
        rw [Nat.div_lt_iff_lt_mul (by decide)]
        exact hn
      rw [encode_of_le (Nat.le_of_not_lt hsmall), List.cons_append, shiftsFrom, decodeAt, hbyte,
        if_neg (by omega), Nat.add_mod_right, Nat.mod_mod, or_shifted hresult (by omega),
        ih hlow (by omega) hhigh, Nat.add_assoc, ← hsplit]

theorem decode64_encode {n : Nat} (h : n < 2 ^ 64) (rest : List UInt8) :
    decode64 (encode n ++ rest) = some (n, rest) := by
  have hcount : n < 128 ^ (9 + 1) := Nat.lt_of_lt_of_le h (by decide)
  have hdecode := @decodeAt_encode 64 rest 9 n 0 0 (by decide) (by simpa using h) hcount
  simpa [shiftsFrom, decode64] using hdecode

end Leb128
