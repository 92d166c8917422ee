import Mathlib.Algebra.Group.Nat.Defs
import Bearmail.Lib.Utf16

/-!
# Mailbox names in modified UTF-7

`utf7_decode` and `utf7_encode` of `imap-proto/src/utf7.rs`. A run of units that are not
printable is written between `&` and `-` in sextets; both directions keep the bits that
are not yet written in the low end of a word of 32 bits, and `Kept` is what they have of the
same unit.
-/

namespace Bearmail.Imap

open List Option

def utf7Rank : List Nat := [
  255, 255, 255, 255, 255, 255, 255, 255, 255, 255, 255, 255, 255, 255, 255, 255, 255, 255, 255,
  255, 255, 255, 255, 255, 255, 255, 255, 255, 255, 255, 255, 255, 255, 255, 255, 255, 255, 255,
  255, 255, 255, 255, 255, 62, 63, 255, 255, 255, 52, 53, 54, 55, 56, 57, 58, 59, 60, 61, 255,
  255, 255, 255, 255, 255, 255, 0, 1, 2, 3, 4, 5, 6, 7, 8, 9, 10, 11, 12, 13, 14, 15, 16, 17, 18,
  19, 20, 21, 22, 23, 24, 25, 255, 255, 255, 255, 255, 255, 26, 27, 28, 29, 30, 31, 32, 33, 34,
  35, 36, 37, 38, 39, 40, 41, 42, 43, 44, 45, 46, 47, 48, 49, 50, 51, 255, 255, 255, 255, 255]

def utf7Map : List Char := "ABCDEFGHIJKLMNOPQRSTUVWXYZabcdefghijklmnopqrstuvwxyz0123456789+,".toList

def utf7Char (word : UInt32) : Char := utf7Map.getD (word &&& 0x3f).toNat 'A'

/-! ## Decoding -/

structure Utf7Reader where
  shifted : Bool
  bits : Nat
  v : UInt32

/-- A sextet, with the unit that it completes. -/
def Utf7Reader.push (r : Utf7Reader) (rank : Nat) : List UInt16 × Utf7Reader :=
  let v := (r.v <<< 6) ||| UInt32.ofNat rank
  let bits := r.bits + 6
  if 16 ≤ bits then
    ([((v >>> UInt32.ofNat (bits - 16)) &&& 0xffff).toUInt16], ⟨r.shifted, bits - 16, v⟩)
  else ([], ⟨r.shifted, bits, v⟩)

def decodeUnits (r : Utf7Reader) : List Char → Option (List UInt16)
  | [] => some []
  | ch :: text =>
    if r.shifted then
      if ch = '-' then decodeUnits ⟨false, 0, 0⟩ text
      else if 127 < ch.toNat then none
      else
        match utf7Rank[ch.toNat]? with
        | none => none
        | some rank =>
          if rank = 0xff then none
          else
            let (units, r) := r.push rank
            (decodeUnits r text).map (units ++ ·)
    else if ch = '&' then
      match text with
      | next :: tail =>
        if next = '-' then (decodeUnits r tail).map (0x26 :: ·)
        else decodeUnits { r with shifted := true } (next :: tail)
      | [] => some [0x26]
    else (decodeUnits r text).map (UInt16.ofNat ch.toNat :: ·)

def utf7Decode (text : String) : Option String :=
  (decodeUnits ⟨false, 0, 0⟩ text.toList).bind fun units => (Utf16.decode units).map String.ofList

def utf7MaybeDecode (text : String) (isUtf8 : Bool) : String :=
  if isUtf8 then text else (utf7Decode text).getD text

/-! ## Encoding -/

structure Utf7Writer where
  shifted : Bool
  bits : Nat
  u : UInt32

def sextets (u : UInt32) : Nat → List Char × Nat
  | bits + 6 =>
    let (rest, left) := sextets u bits
    (utf7Char (u >>> UInt32.ofNat bits) :: rest, left)
  | bits => ([], bits)

/-- The bits that are left and the `-` that ends a run. -/
def Utf7Writer.flush (w : Utf7Writer) : List Char :=
  if w.shifted then
    (if 0 < w.bits then [utf7Char (w.u <<< UInt32.ofNat (6 - w.bits))] else []) ++ ['-']
  else []

def Utf7Writer.push (w : Utf7Writer) (ch : UInt16) : List Char × Utf7Writer :=
  if 0x20 ≤ ch ∧ ch < 0x7f then
    let literal := if ch = 0x26 then ['&', '-'] else [Char.ofNat ch.toUInt8.toNat]
    (w.flush ++ literal, ⟨false, if w.shifted then 0 else w.bits, w.u⟩)
  else
    let start := if w.shifted then [] else ['&']
    let u := (w.u <<< 16) ||| ch.toUInt32
    let (chars, bits) := sextets u (w.bits + 16)
    (start ++ chars, ⟨true, bits, u⟩)

def encodeUnits (w : Utf7Writer) : List UInt16 → List Char
  | [] => w.flush
  | ch :: units =>
    let (chars, w) := w.push ch
    chars ++ encodeUnits w units

def utf7Encode (text : String) : String :=
  String.ofList (encodeUnits ⟨false, 0, 0⟩ (Utf16.encode text.toList))

/-! ## Words -/

theorem toNat_and_63 (word : UInt32) : (word &&& 0x3f).toNat = word.toNat % 64 := by
  rw [UInt32.toNat_and]
  exact Nat.and_two_pow_sub_one_eq_mod word.toNat 6

theorem toNat_shiftRight_ofNat (word : UInt32) {count : Nat} (h : count < 32) :
    (word >>> UInt32.ofNat count).toNat = word.toNat / 2 ^ count := by
  have hcount : (UInt32.ofNat count).toNat = count :=
    UInt32.toNat_ofNat_of_lt' (by simp only [UInt32.size]; omega)
  rw [UInt32.toNat_shiftRight, hcount, Nat.mod_eq_of_lt h, Nat.shiftRight_eq_div_pow]

theorem toNat_shiftLeft_ofNat (word : UInt32) {count : Nat} (h : count < 32) :
    (word <<< UInt32.ofNat count).toNat = word.toNat * 2 ^ count % 2 ^ 32 := by
  have hcount : (UInt32.ofNat count).toNat = count :=
    UInt32.toNat_ofNat_of_lt' (by simp only [UInt32.size]; omega)
  rw [UInt32.toNat_shiftLeft, hcount, Nat.mod_eq_of_lt h, Nat.shiftLeft_eq]

theorem toNat_shiftLeft_or (word low : UInt32) {count : Nat} (h : count < 32)
    (hlow : low.toNat < 2 ^ count) :
    ((word <<< UInt32.ofNat count) ||| low).toNat = (word.toNat * 2 ^ count + low.toNat) % 2 ^ 32 := by
  have hpow : 2 ^ 32 = 2 ^ count * 2 ^ (32 - count) := by
    rw [← Nat.pow_add, Nat.add_sub_cancel' (Nat.le_of_lt h)]
  have hsplit : word.toNat * 2 ^ count % 2 ^ 32 = 2 ^ count * (word.toNat % 2 ^ (32 - count)) := by
    rw [hpow, Nat.mul_comm, Nat.mul_mod_mul_left]
  have hfits : 2 ^ count * (word.toNat % 2 ^ (32 - count)) + low.toNat < 2 ^ 32 := by
    have hlt : word.toNat % 2 ^ (32 - count) + 1 ≤ 2 ^ (32 - count) :=
      Nat.mod_lt _ (Nat.pow_pos (by decide))
    calc 2 ^ count * (word.toNat % 2 ^ (32 - count)) + low.toNat
        < 2 ^ count * (word.toNat % 2 ^ (32 - count)) + 2 ^ count := Nat.add_lt_add_left hlow _
      _ = 2 ^ count * (word.toNat % 2 ^ (32 - count) + 1) := (Nat.mul_succ _ _).symm
      _ ≤ 2 ^ count * 2 ^ (32 - count) := Nat.mul_le_mul_left _ hlt
      _ = 2 ^ 32 := hpow.symm
  rw [UInt32.toNat_or, toNat_shiftLeft_ofNat word h, hsplit, ← Nat.two_pow_add_eq_or_of_lt hlow,
    ← Nat.mod_add_mod, hsplit, Nat.mod_eq_of_lt hfits]

theorem utf7Map_spec : ∀ i < 64, (utf7Map.getD i 'A') ≠ '-' ∧ 0x20 ≤ (utf7Map.getD i 'A').toNat ∧
    (utf7Map.getD i 'A').toNat < 0x7f ∧ utf7Rank[(utf7Map.getD i 'A').toNat]? = some i := by
  intro i hi
  have hall : ∀ p ∈ utf7Map.zipIdx, p.1 ≠ '-' ∧ 0x20 ≤ p.1.toNat ∧ p.1.toNat < 0x7f ∧
      utf7Rank[p.1.toNat]? = some p.2 := by decide +kernel
  have hlen : i < utf7Map.length := hi
  rw [getD_eq_getElem?_getD, List.getElem?_eq_getElem hlen, getD_some]
  exact hall (utf7Map[i], i) (List.mem_zipIdx_iff_getElem?.mpr (List.getElem?_eq_getElem hlen))

theorem decodeUnits_char (bits : Nat) (v word : UInt32) (text : List Char) :
    decodeUnits ⟨true, bits, v⟩ (utf7Char word :: text) =
      (decodeUnits (Utf7Reader.push ⟨true, bits, v⟩ (word.toNat % 64)).2 text).map
        ((Utf7Reader.push ⟨true, bits, v⟩ (word.toNat % 64)).1 ++ ·) := by
  have hlt : word.toNat % 64 < 64 := Nat.mod_lt _ (by decide)
  obtain ⟨hdash, hlow, hhigh, hrank⟩ := utf7Map_spec _ hlt
  have hchar : utf7Char word = utf7Map.getD (word.toNat % 64) 'A' := by
    rw [utf7Char, toNat_and_63]
  have hfits : ¬ 127 < (utf7Map.getD (word.toNat % 64) 'A').toNat := by omega
  have hknown : ¬ word.toNat % 64 = 0xff := by omega
  rw [hchar]
  cases text <;>
    exact (if_neg hdash).trans ((if_neg hfits).trans (by rw [hrank]; exact if_neg hknown))

theorem decodeUnits_dash (bits : Nat) (v : UInt32) (text : List Char) :
    decodeUnits ⟨true, bits, v⟩ ('-' :: text) = decodeUnits ⟨false, 0, 0⟩ text := by
  cases text <;> rfl

theorem decodeUnits_ampersand (r : Utf7Reader) (h : r.shifted = false) (text : List Char) :
    decodeUnits r ('&' :: '-' :: text) = (decodeUnits r text).map (0x26 :: ·) := by
  obtain ⟨_, bits, v⟩ := r
  cases h
  rfl

theorem decodeUnits_shift (r : Utf7Reader) (h : r.shifted = false) (word : UInt32)
    (text : List Char) : decodeUnits r ('&' :: utf7Char word :: text) =
      decodeUnits { r with shifted := true } (utf7Char word :: text) := by
  have hdash : utf7Char word ≠ '-' := by
    rw [utf7Char, toNat_and_63]
    exact (utf7Map_spec _ (Nat.mod_lt _ (by decide))).1
  obtain ⟨_, bits, v⟩ := r
  cases h
  exact if_neg hdash

theorem decodeUnits_literal (r : Utf7Reader) (h : r.shifted = false) {ch : Char} (hch : ch ≠ '&')
    (text : List Char) :
    decodeUnits r (ch :: text) = (decodeUnits r text).map (UInt16.ofNat ch.toNat :: ·) := by
  obtain ⟨_, bits, v⟩ := r
  cases h
  cases text <;> exact if_neg hch

theorem push_v (v : UInt32) {rank : Nat} (h : rank < 64) :
    ((v <<< 6) ||| UInt32.ofNat rank).toNat = (v.toNat * 64 + rank) % 2 ^ 32 := by
  have hrank : (UInt32.ofNat rank).toNat = rank :=
    UInt32.toNat_ofNat_of_lt' (by simp only [UInt32.size]; omega)
  have hor := toNat_shiftLeft_or v (UInt32.ofNat rank) (show 6 < 32 by decide) (by rwa [hrank])
  rw [hrank] at hor
  exact hor

theorem push_u (u : UInt32) (ch : UInt16) :
    ((u <<< 16) ||| ch.toUInt32).toNat = (u.toNat * 65536 + ch.toNat) % 2 ^ 32 :=
  toNat_shiftLeft_or u ch.toUInt32 (show 16 < 32 by decide) ch.toNat_lt

theorem unit_v (v : UInt32) {bits : Nat} (h : bits < 32) :
    (((v >>> UInt32.ofNat bits) &&& 0xffff).toUInt16).toNat = v.toNat / 2 ^ bits % 65536 := by
  have hand : ((v >>> UInt32.ofNat bits) &&& 0xffff).toNat = v.toNat / 2 ^ bits % 65536 := by
    rw [UInt32.toNat_and, toNat_shiftRight_ofNat v h]
    exact Nat.and_two_pow_sub_one_eq_mod _ 16
  rw [UInt32.toNat_toUInt16, hand, Nat.mod_mod]

theorem decodeUnits_short {bits : Nat} (h : bits < 10) (v word : UInt32) (text : List Char) :
    ∃ v' : UInt32, v'.toNat = (v.toNat * 64 + word.toNat % 64) % 2 ^ 32 ∧
      decodeUnits ⟨true, bits, v⟩ (utf7Char word :: text) = decodeUnits ⟨true, bits + 6, v'⟩ text := by
  refine ⟨_, push_v v (Nat.mod_lt _ (by decide)), ?_⟩
  have hpush : Utf7Reader.push ⟨true, bits, v⟩ (word.toNat % 64) =
      ([], ⟨true, bits + 6, (v <<< 6) ||| UInt32.ofNat (word.toNat % 64)⟩) :=
    if_neg (show ¬ 16 ≤ bits + 6 by omega)
  rw [decodeUnits_char, hpush]
  simp [Option.map_id']

theorem decodeUnits_full {bits : Nat} (h : 10 ≤ bits) (hlt : bits < 16) (v word : UInt32)
    (text : List Char) : ∃ v' : UInt32, v'.toNat = (v.toNat * 64 + word.toNat % 64) % 2 ^ 32 ∧
      ∀ unit : UInt16, unit.toNat = v'.toNat / 2 ^ (bits - 10) % 65536 →
        decodeUnits ⟨true, bits, v⟩ (utf7Char word :: text) =
          (decodeUnits ⟨true, bits - 10, v'⟩ text).map (unit :: ·) := by
  refine ⟨_, push_v v (Nat.mod_lt _ (by decide)), ?_⟩
  intro unit hunit
  have hbits : bits + 6 - 16 = bits - 10 := by omega
  have hpush : Utf7Reader.push ⟨true, bits, v⟩ (word.toNat % 64) = ([unit],
      ⟨true, bits - 10, (v <<< 6) ||| UInt32.ofNat (word.toNat % 64)⟩) := by
    rw [← unit_v _ (show bits - 10 < 32 by omega)] at hunit
    rw [UInt16.toNat_inj.mp hunit, ← hbits]
    exact if_pos (show 16 ≤ bits + 6 by omega)
  rw [decodeUnits_char, hpush]
  rfl

/-- What the writer and the reader keep between two units: the unit that both have a part of. -/
inductive Kept : Utf7Writer → Utf7Reader → List UInt16 → Prop where
  | idle (u : UInt32) : Kept ⟨false, 0, u⟩ ⟨false, 0, 0⟩ []
  | whole (u v : UInt32) : Kept ⟨true, 0, u⟩ ⟨true, 0, v⟩ []
  | four {u v : UInt32} {unit : UInt16} (h : unit.toNat = v.toNat % 4096 * 16 + u.toNat % 16) :
    Kept ⟨true, 4, u⟩ ⟨true, 12, v⟩ [unit]
  | two {u v : UInt32} {unit : UInt16} (h : unit.toNat = v.toNat % 16384 * 4 + u.toNat % 4) :
    Kept ⟨true, 2, u⟩ ⟨true, 14, v⟩ [unit]

theorem Kept.flush {w : Utf7Writer} {r : Utf7Reader} {kept : List UInt16} (h : Kept w r kept)
    (text : List Char) : decodeUnits r (w.flush ++ text) =
      (decodeUnits ⟨false, 0, 0⟩ text).map (kept ++ ·) := by
  cases h with
  | idle u =>
    show decodeUnits ⟨false, 0, 0⟩ text = _
    simp [Option.map_id']
  | whole u v =>
    show decodeUnits ⟨true, 0, v⟩ ('-' :: text) = _
    simp [decodeUnits_dash, Option.map_id']
  | @four u v unit hunit =>
    have hword := toNat_shiftLeft_ofNat u (show 2 < 32 by decide)
    obtain ⟨v', hv, hread⟩ := decodeUnits_full (show 10 ≤ 12 by decide) (by decide) v
      (u <<< UInt32.ofNat 2) ('-' :: text)
    have hcomplete := hread unit (by omega)
    rw [decodeUnits_dash] at hcomplete
    exact hcomplete
  | @two u v unit hunit =>
    have hword := toNat_shiftLeft_ofNat u (show 4 < 32 by decide)
    obtain ⟨v', hv, hread⟩ := decodeUnits_full (show 10 ≤ 14 by decide) (by decide) v
      (u <<< UInt32.ofNat 4) ('-' :: text)
    have hcomplete := hread unit (by omega)
    rw [decodeUnits_dash] at hcomplete
    exact hcomplete

section Push

variable (u v : UInt32) (ch : UInt16) (text : List Char)

theorem push_whole : let u' := (u <<< 16) ||| ch.toUInt32
    ∃ r' out kept', Kept ⟨true, (sextets u' (0 + 16)).2, u'⟩ r' kept' ∧ out ++ kept' = [] ++ [ch] ∧
      decodeUnits ⟨true, 0, v⟩ ((sextets u' (0 + 16)).1 ++ text) = (decodeUnits r' text).map (out ++ ·) := by
  have hch := ch.toNat_lt
  have hu := push_u u ch
  generalize (u <<< 16) ||| ch.toUInt32 = u' at hu ⊢
  have h1 := toNat_shiftRight_ofNat u' (show 10 < 32 by decide)
  have h2 := toNat_shiftRight_ofNat u' (show 4 < 32 by decide)
  obtain ⟨v1, hv1, hread1⟩ := decodeUnits_short (show 0 < 10 by decide) v (u' >>> UInt32.ofNat 10)
    (utf7Char (u' >>> UInt32.ofNat 4) :: text)
  obtain ⟨v2, hv2, hread2⟩ := decodeUnits_short (show 6 < 10 by decide) v1 (u' >>> UInt32.ofNat 4) text
  have hkept : ch.toNat = v2.toNat % 4096 * 16 + u'.toNat % 16 := by omega
  refine ⟨_, [], [ch], .four hkept, rfl, ?_⟩
  simp only [nil_append, Option.map_id']
  exact hread1.trans hread2

theorem push_four {unit : UInt16}
    (hunit : unit.toNat = v.toNat % 4096 * 16 + u.toNat % 16) : let u' := (u <<< 16) ||| ch.toUInt32
    ∃ r' out kept', Kept ⟨true, (sextets u' (4 + 16)).2, u'⟩ r' kept' ∧ out ++ kept' = [unit] ++ [ch] ∧
      decodeUnits ⟨true, 12, v⟩ ((sextets u' (4 + 16)).1 ++ text) = (decodeUnits r' text).map (out ++ ·) := by
  have hch := ch.toNat_lt
  have hu := push_u u ch
  generalize (u <<< 16) ||| ch.toUInt32 = u' at hu ⊢
  have h1 := toNat_shiftRight_ofNat u' (show 14 < 32 by decide)
  have h2 := toNat_shiftRight_ofNat u' (show 8 < 32 by decide)
  have h3 := toNat_shiftRight_ofNat u' (show 2 < 32 by decide)
  obtain ⟨v1, hv1, hread1⟩ := decodeUnits_full (show 10 ≤ 12 by decide) (by decide) v
    (u' >>> UInt32.ofNat 14)
    (utf7Char (u' >>> UInt32.ofNat 8) :: utf7Char (u' >>> UInt32.ofNat 2) :: text)
  obtain ⟨v2, hv2, hread2⟩ := decodeUnits_short (show 2 < 10 by decide) v1 (u' >>> UInt32.ofNat 8)
    (utf7Char (u' >>> UInt32.ofNat 2) :: text)
  obtain ⟨v3, hv3, hread3⟩ := decodeUnits_short (show 8 < 10 by decide) v2 (u' >>> UInt32.ofNat 2) text
  have hcomplete := hread1 unit (by omega)
  rw [hread2, hread3] at hcomplete
  have hkept : ch.toNat = v3.toNat % 16384 * 4 + u'.toNat % 4 := by omega
  exact ⟨_, [unit], [ch], .two hkept, rfl, hcomplete⟩

theorem push_two {unit : UInt16}
    (hunit : unit.toNat = v.toNat % 16384 * 4 + u.toNat % 4) : let u' := (u <<< 16) ||| ch.toUInt32
    ∃ r' out kept', Kept ⟨true, (sextets u' (2 + 16)).2, u'⟩ r' kept' ∧ out ++ kept' = [unit] ++ [ch] ∧
      decodeUnits ⟨true, 14, v⟩ ((sextets u' (2 + 16)).1 ++ text) = (decodeUnits r' text).map (out ++ ·) := by
  have hch := ch.toNat_lt
  have hu := push_u u ch
  generalize (u <<< 16) ||| ch.toUInt32 = u' at hu ⊢
  have h1 := toNat_shiftRight_ofNat u' (show 12 < 32 by decide)
  have h2 := toNat_shiftRight_ofNat u' (show 6 < 32 by decide)
  have h3 := toNat_shiftRight_ofNat u' (show 0 < 32 by decide)
  obtain ⟨v1, hv1, hread1⟩ := decodeUnits_full (show 10 ≤ 14 by decide) (by decide) v
    (u' >>> UInt32.ofNat 12)
    (utf7Char (u' >>> UInt32.ofNat 6) :: utf7Char (u' >>> UInt32.ofNat 0) :: text)
  obtain ⟨v2, hv2, hread2⟩ := decodeUnits_short (show 4 < 10 by decide) v1 (u' >>> UInt32.ofNat 6)
    (utf7Char (u' >>> UInt32.ofNat 0) :: text)
  obtain ⟨v3, hv3, hread3⟩ := decodeUnits_full (show 10 ≤ 10 by decide) (by decide) v2
    (u' >>> UInt32.ofNat 0) text
  have hcomplete := hread1 unit (by omega)
  rw [hread2, hread3 ch (by omega), Option.map_map] at hcomplete
  exact ⟨_, [unit, ch], [], .whole _ v3, rfl, hcomplete⟩

end Push

theorem Kept.push {w : Utf7Writer} {r : Utf7Reader} {kept : List UInt16} (h : Kept w r kept)
    (hshifted : w.shifted = true) (ch : UInt16) (text : List Char) :
    let u := (w.u <<< 16) ||| ch.toUInt32
    ∃ r' out kept', Kept ⟨true, (sextets u (w.bits + 16)).2, u⟩ r' kept' ∧ out ++ kept' = kept ++ [ch] ∧
      decodeUnits r ((sextets u (w.bits + 16)).1 ++ text) = (decodeUnits r' text).map (out ++ ·) := by
  cases h with
  | idle u => cases hshifted
  | whole u v => exact push_whole u v ch text
  | @four u v unit hunit => exact push_four u v ch text hunit
  | @two u v unit hunit => exact push_two u v ch text hunit

theorem decodeUnits_printable {ch : UInt16} (h : 0x20 ≤ ch ∧ ch < 0x7f) (text : List Char) :
    decodeUnits ⟨false, 0, 0⟩
        ((if ch = 0x26 then ['&', '-'] else [Char.ofNat ch.toUInt8.toNat]) ++ text) =
      (decodeUnits ⟨false, 0, 0⟩ text).map (ch :: ·) := by
  split
  · rename_i hampersand
    rw [hampersand]
    exact decodeUnits_ampersand _ rfl text
  · rename_i hampersand
    have hlt : ch.toNat < 0x7f := UInt16.lt_iff_toNat_lt.mp h.2
    have hbyte : ch.toUInt8.toNat = ch.toNat := by
      rw [UInt16.toNat_toUInt8]
      omega
    have hchar : (Char.ofNat ch.toNat).toNat = ch.toNat :=
      Utf16.toNat_ofNat (Or.inl (by omega))
    have hne : Char.ofNat ch.toNat ≠ '&' := by
      intro heq
      rw [heq] at hchar
      exact hampersand (UInt16.toNat_inj.mp hchar.symm)
    rw [hbyte, singleton_append, decodeUnits_literal _ rfl hne, hchar, UInt16.ofNat_toNat]

theorem decode_encodeUnits {w : Utf7Writer} {r : Utf7Reader} {kept : List UInt16}
    (h : Kept w r kept) (units : List UInt16) :
    decodeUnits r (encodeUnits w units) = some (kept ++ units) := by
  induction units generalizing w r kept with
  | nil =>
    have hflush := h.flush []
    rw [List.append_nil] at hflush
    rw [encodeUnits, hflush]
    rfl
  | cons ch units ih =>
    rw [encodeUnits, Utf7Writer.push]
    by_cases hprintable : 0x20 ≤ ch ∧ ch < 0x7f
    · have hbits : (if w.shifted then 0 else w.bits) = 0 := by cases h <;> rfl
      rw [if_pos hprintable]
      dsimp only
      rw [hbits, append_assoc, h.flush, decodeUnits_printable hprintable, ih (.idle _)]
      rfl
    · rw [if_neg hprintable]
      dsimp only
      cases hshifted : w.shifted with
      | true =>
        obtain ⟨r', out, kept', hkept, hout, hread⟩ := h.push hshifted ch
          (encodeUnits ⟨true, (sextets ((w.u <<< 16) ||| ch.toUInt32) (w.bits + 16)).2,
            (w.u <<< 16) ||| ch.toUInt32⟩ units)
        rw [if_pos rfl, nil_append, hread, ih hkept, map_some, ← append_assoc, hout, append_assoc]
        rfl
      | false =>
        cases h with
        | whole | four | two => cases hshifted
        | idle u =>
          -- a run starts with a sextet, so its `&` is not taken for an ampersand
          obtain ⟨r', out, kept', hkept, hout, hread⟩ := (Kept.whole u 0).push rfl ch
            (encodeUnits ⟨true, (sextets ((u <<< 16) ||| ch.toUInt32) 16).2,
              (u <<< 16) ||| ch.toUInt32⟩ units)
          rw [if_neg Bool.false_ne_true, append_assoc]
          refine (decodeUnits_shift _ rfl _ _).trans (hread.trans ?_)
          rw [ih hkept, map_some, ← append_assoc, hout]
          rfl

theorem utf7Decode_utf7Encode (text : String) : utf7Decode (utf7Encode text) = some text := by
  have hunits := decode_encodeUnits (.idle 0) (Utf16.encode text.toList)
  rw [nil_append] at hunits
  simp [utf7Decode, utf7Encode, String.toList_ofList, hunits, Utf16.decode_encode, String.ofList_toList]

/-! ## Printable characters -/

def IsPrintable (c : Char) : Prop := 0x20 ≤ c.toNat ∧ c.toNat < 0x7f

theorem isPrintable_utf7Char (word : UInt32) : IsPrintable (utf7Char word) := by
  rw [utf7Char, toNat_and_63]
  obtain ⟨_, hlow, hhigh, _⟩ := utf7Map_spec _ (Nat.mod_lt word.toNat (show 0 < 64 by decide))
  exact ⟨hlow, hhigh⟩

theorem isPrintable_sextets (u : UInt32) (bits : Nat) : ∀ c ∈ (sextets u bits).1, IsPrintable c := by
  induction bits using Nat.strongRecOn with
  | ind bits ih =>
    unfold sextets
    split
    · rename_i bits
      rintro c (_ | ⟨_, hc⟩)
      · exact isPrintable_utf7Char _
      · exact ih bits (by omega) c hc
    · exact nofun

theorem isPrintable_flush (w : Utf7Writer) : ∀ c ∈ w.flush, IsPrintable c := by
  intro c hc
  unfold Utf7Writer.flush at hc
  split at hc
  · rcases mem_append.mp hc with hbits | hdash
    · split at hbits
      · rw [mem_singleton.mp hbits]
        exact isPrintable_utf7Char _
      · cases hbits
    · rw [mem_singleton.mp hdash]
      exact ⟨by decide, by decide⟩
  · cases hc

theorem isPrintable_push (w : Utf7Writer) (ch : UInt16) : ∀ c ∈ (w.push ch).1, IsPrintable c := by
  intro c hc
  unfold Utf7Writer.push at hc
  split at hc
  · rename_i hprintable
    rcases mem_append.mp hc with hflush | hliteral
    · exact isPrintable_flush w c hflush
    · split at hliteral
      · simp only [mem_cons, not_mem_nil, or_false] at hliteral
        rcases hliteral with rfl | rfl <;> exact ⟨by decide, by decide⟩
      · have hlow : 0x20 ≤ ch.toNat := UInt16.le_iff_toNat_le.mp hprintable.1
        have hhigh : ch.toNat < 0x7f := UInt16.lt_iff_toNat_lt.mp hprintable.2
        have hbyte : ch.toUInt8.toNat = ch.toNat := by
          rw [UInt16.toNat_toUInt8]
          omega
        have hchar : (Char.ofNat ch.toNat).toNat = ch.toNat :=
          Utf16.toNat_ofNat (Or.inl (by omega))
        rw [mem_singleton.mp hliteral, hbyte, IsPrintable, hchar]
        exact ⟨hlow, hhigh⟩
  · rcases mem_append.mp hc with hstart | hchars
    · split at hstart
      · cases hstart
      · rw [mem_singleton.mp hstart]
        exact ⟨by decide, by decide⟩
    · exact isPrintable_sextets _ _ c hchars

theorem isPrintable_encodeUnits (w : Utf7Writer) (units : List UInt16) :
    ∀ c ∈ encodeUnits w units, IsPrintable c := by
  induction units generalizing w with
  | nil => exact isPrintable_flush w
  | cons ch units ih =>
    intro c hc
    rcases mem_append.mp hc with hpush | hrest
    · exact isPrintable_push w ch c hpush
    · exact ih _ c hrest

/-- A name is written in printable characters of ASCII, and read back as it was. -/
theorem utf7_round_trip (text : String) : utf7Decode (utf7Encode text) = some text ∧
    ∀ c ∈ (utf7Encode text).toList, IsPrintable c := by
  refine ⟨utf7Decode_utf7Encode text, ?_⟩
  rw [utf7Encode, String.toList_ofList]
  exact isPrintable_encodeUnits _ _

/-! ## Names that are not encoded -/

theorem decodeUnits_raw (r : Utf7Reader) (h : r.shifted = false) {text : List Char}
    (htext : '&' ∉ text) :
    decodeUnits r text = some (text.map fun c => UInt16.ofNat c.toNat) := by
  induction text with
  | nil => rfl
  | cons c text ih =>
    rw [mem_cons, not_or] at htext
    obtain ⟨hc, htext⟩ := htext
    rw [decodeUnits_literal r h (Ne.symm hc), ih htext]
    rfl

/-- A name without `&` is left as it is when all its characters are of the first plane. -/
theorem utf7Decode_raw_iff (text : String) (h : '&' ∉ text.toList) :
    utf7Decode text = some text ↔ ∀ c ∈ text.toList, Utf16.Basic c := by
  rw [utf7Decode, decodeUnits_raw _ rfl h, bind_some]
  constructor
  · intro hdecode
    obtain ⟨decoded, hdecode, htext⟩ := map_eq_some_iff.mp hdecode
    have hlist : decoded = text.toList := by rw [← htext, String.toList_ofList]
    have hencode := Utf16.encode_decode _ _ hdecode
    rw [hlist] at hencode
    rw [← Utf16.length_encode_iff, hencode, length_map]
  · intro hbasic
    simp [← Utf16.encode_basic hbasic, Utf16.decode_encode, String.ofList_toList]

theorem utf7Decode_raw_accent : utf7Decode "é" = some "é" := by
  refine (utf7Decode_raw_iff "é" (by decide)).mpr fun c hc => ?_
  rw [mem_singleton.mp hc]
  decide

/-- A character above the first plane is cut to sixteen bits. -/
theorem not_utf7Decode_raw : '&' ∉ "😀".toList ∧ utf7Decode "😀" = some "\uf600" ∧
    utf7MaybeDecode "😀" false = "\uf600" := by
  decide

end Bearmail.Imap
