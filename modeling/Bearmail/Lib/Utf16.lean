import Mathlib.Data.List.Basic

/-!
# UTF-16

The units of a text and the text of units, with the laws of the round trip in both
directions. A code point above the first plane is a pair of surrogates; a surrogate
that is not in a pair is refused.
-/

namespace Utf16

open List

def Basic (c : Char) : Prop := c.toNat < 0x10000

instance (c : Char) : Decidable (Basic c) := inferInstanceAs (Decidable (_ < _))

def encodeChar (c : Char) : List UInt16 :=
  if Basic c then [UInt16.ofNat c.toNat]
  else
    [UInt16.ofNat (0xD800 + (c.toNat - 0x10000) / 0x400),
      UInt16.ofNat (0xDC00 + (c.toNat - 0x10000) % 0x400)]

def encode (text : List Char) : List UInt16 := text.flatMap encodeChar

def IsHigh (unit : UInt16) : Prop := 0xD800 ≤ unit.toNat ∧ unit.toNat < 0xDC00

def IsLow (unit : UInt16) : Prop := 0xDC00 ≤ unit.toNat ∧ unit.toNat < 0xE000

instance (unit : UInt16) : Decidable (IsHigh unit) := inferInstanceAs (Decidable (_ ∧ _))

instance (unit : UInt16) : Decidable (IsLow unit) := inferInstanceAs (Decidable (_ ∧ _))

def pair (high low : UInt16) : Char :=
  Char.ofNat (0x10000 + ((high.toNat - 0xD800) * 0x400 + (low.toNat - 0xDC00)))

def decode : List UInt16 → Option (List Char)
  | [] => some []
  | unit :: rest =>
    if IsHigh unit then
      match rest with
      | low :: rest => if IsLow low then (decode rest).map (pair unit low :: ·) else none
      | [] => none
    else if IsLow unit then none
    else (decode rest).map (Char.ofNat unit.toNat :: ·)

theorem isValidChar (c : Char) : c.toNat < 0xD800 ∨ 0xDFFF < c.toNat ∧ c.toNat < 0x110000 :=
  c.valid

theorem decode_basic {c : Char} (hc : Basic c) (units : List UInt16) :
    decode (UInt16.ofNat c.toNat :: units) = (decode units).map (c :: ·) := by
  have hunit : (UInt16.ofNat c.toNat).toNat = c.toNat := UInt16.toNat_ofNat_of_lt' hc
  have hvalid := isValidChar c
  have hhigh : ¬ IsHigh (UInt16.ofNat c.toNat) := by
    rw [IsHigh]
    omega
  have hlow : ¬ IsLow (UInt16.ofNat c.toNat) := by
    rw [IsLow]
    omega
  rw [decode.eq_def]
  simp [hhigh, hlow, hunit, Char.ofNat_toNat]

theorem decode_pair {c : Char} (hc : ¬ Basic c) (units : List UInt16) :
    decode (UInt16.ofNat (0xD800 + (c.toNat - 0x10000) / 0x400) ::
      UInt16.ofNat (0xDC00 + (c.toNat - 0x10000) % 0x400) :: units) =
      (decode units).map (c :: ·) := by
  have hvalid := isValidChar c
  have hge : 0x10000 ≤ c.toNat := Nat.le_of_not_lt hc
  have hhigh : (UInt16.ofNat (0xD800 + (c.toNat - 0x10000) / 0x400)).toNat =
      0xD800 + (c.toNat - 0x10000) / 0x400 := by
    apply UInt16.toNat_ofNat_of_lt'
    simp only [UInt16.size]
    omega
  have hlow : (UInt16.ofNat (0xDC00 + (c.toNat - 0x10000) % 0x400)).toNat =
      0xDC00 + (c.toNat - 0x10000) % 0x400 := by
    apply UInt16.toNat_ofNat_of_lt'
    simp only [UInt16.size]
    omega
  have hpair : pair (UInt16.ofNat (0xD800 + (c.toNat - 0x10000) / 0x400))
      (UInt16.ofNat (0xDC00 + (c.toNat - 0x10000) % 0x400)) = c := by
    rw [pair, hhigh, hlow]
    have hnumber : 0x10000 + ((0xD800 + (c.toNat - 0x10000) / 0x400 - 0xD800) * 0x400 +
        (0xDC00 + (c.toNat - 0x10000) % 0x400 - 0xDC00)) = c.toNat := by omega
    rw [hnumber, Char.ofNat_toNat]
  have hishigh : IsHigh (UInt16.ofNat (0xD800 + (c.toNat - 0x10000) / 0x400)) := by
    rw [IsHigh]
    omega
  have hislow : IsLow (UInt16.ofNat (0xDC00 + (c.toNat - 0x10000) % 0x400)) := by
    rw [IsLow]
    omega
  rw [decode.eq_def]
  dsimp only
  rw [if_pos hishigh, if_pos hislow, hpair]

variable (text : List Char)

theorem decode_encode : decode (encode text) = some text := by
  induction text with
  | nil => rfl
  | cons c text ih =>
    rw [encode, flatMap_cons, ← encode, encodeChar]
    split
    · rename_i hc
      rw [singleton_append, decode_basic hc, ih]
      rfl
    · rename_i hc
      rw [cons_append, singleton_append, decode_pair hc, ih]
      rfl

theorem toNat_ofNat {n : Nat} (h : n.isValidChar) : (Char.ofNat n).toNat = n := by
  rw [Char.ofNat, dif_pos h]
  rfl

theorem encodeChar_unit {unit : UInt16} (hhigh : ¬ IsHigh unit) (hlow : ¬ IsLow unit) :
    encodeChar (Char.ofNat unit.toNat) = [unit] := by
  have hlt := unit.toNat_lt
  have hvalid : unit.toNat.isValidChar := by
    unfold IsHigh at hhigh
    unfold IsLow at hlow
    omega
  have hnumber : (Char.ofNat unit.toNat).toNat = unit.toNat := toNat_ofNat hvalid
  have hbasic : Basic (Char.ofNat unit.toNat) := by
    rw [Basic, hnumber]
    exact hlt
  simp [encodeChar, hbasic, hnumber]

theorem encodeChar_pair {high low : UInt16} (hhigh : IsHigh high) (hlow : IsLow low) :
    encodeChar (pair high low) = [high, low] := by
  unfold IsHigh at hhigh
  unfold IsLow at hlow
  have hvalid : (0x10000 + ((high.toNat - 0xD800) * 0x400 + (low.toNat - 0xDC00))).isValidChar := by
    omega
  have hnumber : (pair high low).toNat =
      0x10000 + ((high.toNat - 0xD800) * 0x400 + (low.toNat - 0xDC00)) := toNat_ofNat hvalid
  have hquot : 0xD800 + ((pair high low).toNat - 0x10000) / 0x400 = high.toNat := by omega
  have hrem : 0xDC00 + ((pair high low).toNat - 0x10000) % 0x400 = low.toNat := by omega
  have hbasic : ¬ Basic (pair high low) := by
    rw [Basic]
    omega
  simp [encodeChar, hbasic, hquot, hrem]

theorem encode_decode (units : List UInt16) :
    ∀ text, decode units = some text → encode text = units := by
  induction units using decode.induct with
  | case1 =>
    intro text h
    cases h
    rfl
  | case2 unit hhigh low rest hlow ih =>
    intro text h
    rw [decode.eq_def] at h
    dsimp only at h
    rw [if_pos hhigh, if_pos hlow] at h
    obtain ⟨text, hrest, rfl⟩ := Option.map_eq_some_iff.mp h
    rw [encode, flatMap_cons, encodeChar_pair hhigh hlow, ← encode, ih text hrest]
    rfl
  | case3 unit hhigh low rest hlow =>
    intro text h
    rw [decode.eq_def] at h
    dsimp only at h
    rw [if_pos hhigh, if_neg hlow] at h
    cases h
  | case4 unit hhigh =>
    intro text h
    rw [decode.eq_def] at h
    dsimp only at h
    rw [if_pos hhigh] at h
    cases h
  | case5 unit rest hhigh hlow =>
    intro text h
    rw [decode.eq_def] at h
    dsimp only at h
    rw [if_neg hhigh, if_pos hlow] at h
    cases h
  | case6 unit rest hhigh hlow ih =>
    intro text h
    rw [decode.eq_def] at h
    dsimp only at h
    rw [if_neg hhigh, if_neg hlow] at h
    obtain ⟨text, hrest, rfl⟩ := Option.map_eq_some_iff.mp h
    rw [encode, flatMap_cons, encodeChar_unit hhigh hlow, ← encode, ih text hrest]
    rfl

theorem length_encodeChar (c : Char) : (encodeChar c).length = if Basic c then 1 else 2 := by
  unfold encodeChar
  split <;> rfl

theorem length_le_encode : text.length ≤ (encode text).length := by
  induction text with
  | nil => exact Nat.le_refl 0
  | cons c text ih =>
    rw [encode, flatMap_cons, ← encode, length_append, length_cons, length_encodeChar]
    split <;> omega

theorem length_encode_iff : (encode text).length = text.length ↔ ∀ c ∈ text, Basic c := by
  induction text with
  | nil => exact iff_of_true rfl nofun
  | cons c text ih =>
    have hle := length_le_encode text
    rw [encode, flatMap_cons, ← encode, length_append, length_cons,
      length_encodeChar, forall_mem_cons, ← ih]
    split
    · rename_i hc
      exact ⟨fun h => ⟨hc, by omega⟩, fun h => by omega⟩
    · rename_i hc
      exact ⟨fun h => by omega, fun h => absurd h.1 hc⟩

theorem encode_basic {text : List Char} (h : ∀ c ∈ text, Basic c) :
    encode text = text.map fun c => UInt16.ofNat c.toNat := by
  induction text with
  | nil => rfl
  | cons c text ih =>
    have hc := h c mem_cons_self
    rw [encode, flatMap_cons, ← encode, ih fun d hd => h d (mem_cons_of_mem _ hd), encodeChar, if_pos hc]
    rfl

end Utf16
