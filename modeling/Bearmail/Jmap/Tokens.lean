import Bearmail.Jmap.Changes
import Bearmail.Store.KeyLayout
import Bearmail.Utils.Base32
import Bearmail.Utils.Leb128

/-!
# Opaque tokens

The texts of `Id`, `BlobId` and `State`: `types/src/id.rs`, `types/src/blob.rs` and
`jmap-proto/src/types/state.rs`. What an iterator still gives is a list.
-/

namespace Bearmail.Jmap

open List Leb128 Utils
open Utils.Leb128Int (u32 u64 usize)
open Store (BlobHash)

/-! ## Ids -/

def idFromStr (id : UInt64) : List UInt8 → Option UInt64
  | [] => some id
  | ch :: s =>
    if base32Inverse ch ≠ 255 then idFromStr ((id <<< 5) ||| (base32Inverse ch).toUInt64) s else none

/-- The loop up to the stop bit, for a number of turns. -/
def pushDigits : Nat → UInt64 → Option (List UInt8)
  | 0, _ => none
  | turns + 1, n =>
    if n = (1 : UInt64) <<< 60 then some []
    else (pushDigits turns (n <<< 5)).map (base32Alphabet (n >>> 59).toUInt8 :: ·)

def idAsString (id : UInt64) : Option (List UInt8) :=
  if id = 0 then some [97]
  else
    let n := (id <<< 4) ||| 1
    if id >>> 60 = 0 then
      let leadingZeros := 63 - n.toNat.log2
      pushDigits 13 (n <<< .ofNat (leadingZeros / 5 * 5))
    else (pushDigits 13 n).map (base32Alphabet (id >>> 60).toUInt8 :: ·)

theorem idFromStr_digit {id digit : UInt64} (hdigit : digit.toNat < 32) (hid : id.toNat * 32 < 2 ^ 64) (s : List UInt8) :
    ∃ next : UInt64, next.toNat = id.toNat * 32 + digit.toNat ∧
      idFromStr id (base32Alphabet digit.toUInt8 :: s) = idFromStr next s := by
  have hch : digit.toUInt8.toNat = digit.toNat := by
    rw [UInt64.toNat_toUInt8]
    omega
  obtain ⟨hinverse, hne⟩ := inverse_alphabet (hch ▸ hdigit)
  refine ⟨(id <<< 5) ||| digit.toUInt8.toUInt64, ?_, by rw [idFromStr, hinverse, if_pos hne]⟩
  have hor := Nat.shiftLeft_add_eq_or_of_lt (show digit.toNat < 2 ^ 5 from hdigit) id.toNat
  have hshift : (id <<< 5).toNat = id.toNat <<< 5 := by
    rw [UInt64.toNat_shiftLeft]
    exact Nat.mod_eq_of_lt (by rwa [Nat.shiftLeft_eq])
  rw [UInt64.toNat_or, UInt8.toNat_toUInt64, hch, hshift, ← hor, Nat.shiftLeft_eq]

theorem pushDigits_spec {k v turns : Nat} {n : UInt64} (hk : k ≤ 12) (hv : v < 2 ^ (5 * k)) (hturns : k < turns)
    (hn : n.toNat = (16 * v + 1) * 2 ^ (60 - 5 * k)) :
    ∃ chars, pushDigits turns n = some chars ∧ ∀ id : UInt64, id.toNat * 2 ^ (5 * k) + v < 2 ^ 64 →
      ∃ read : UInt64, read.toNat = id.toNat * 2 ^ (5 * k) + v ∧ idFromStr id chars = some read := by
  induction k generalizing v turns n with
  | zero =>
    obtain ⟨turns, rfl⟩ : ∃ t, turns = t + 1 := ⟨turns - 1, by omega⟩
    obtain rfl : v = 0 := by simpa using hv
    obtain rfl : n = (1 : UInt64) <<< 60 := UInt64.toNat_inj.mp hn
    exact ⟨[], rfl, fun id _ => ⟨id, by simp, rfl⟩⟩
  | succ k ih =>
    obtain ⟨turns, rfl⟩ : ∃ t, turns = t + 1 := ⟨turns - 1, by omega⟩
    have hpow : 2 ^ (5 * (k + 1)) = 32 * 2 ^ (5 * k) := by ring
    have hshift : 2 ^ (60 - 5 * k) = 32 * 2 ^ (60 - 5 * (k + 1)) := by
      rw [show 60 - 5 * k = 60 - 5 * (k + 1) + 5 by omega, Nat.pow_add]
      ring
    have hone : 2 ^ (5 * k) * 2 ^ (60 - 5 * (k + 1)) = 2 ^ 55 := by
      rw [← Nat.pow_add]
      congr 1
      omega
    have hp : 0 < 2 ^ (5 * k) := Nat.two_pow_pos _
    have hq : 0 < 2 ^ (60 - 5 * (k + 1)) := Nat.two_pow_pos _
    rw [hpow] at hv ⊢
    rw [hshift] at ih
    generalize 2 ^ (60 - 5 * (k + 1)) = q at *
    generalize 2 ^ (5 * k) = p at *
    have hdigit : v / p < 32 := Nat.div_lt_of_lt_mul (by rwa [Nat.mul_comm])
    have hrest := Nat.mod_lt v hp
    have hdiv := Nat.div_add_mod v p
    generalize v / p = digit at *
    generalize v % p = rest at *
    obtain rfl := hdiv
    have hlow : (16 * rest + 1) * q < 16 * p * q := Nat.mul_lt_mul_of_pos_right (by omega) hq
    have hsplit : n.toNat = digit * (16 * (p * q)) + (16 * rest + 1) * q := by
      rw [hn]
      ring
    rw [Nat.mul_assoc, hone] at hlow
    rw [hone] at hsplit
    have hstop : n ≠ (1 : UInt64) <<< 60 := by
      rintro rfl
      have hodd : (16 * (p * digit + rest) + 1) * q = 32 * p * q := by
        rw [← hn, Nat.mul_assoc, hone]
        rfl
      have := Nat.eq_of_mul_eq_mul_right hq hodd
      omega
    have htop : (n >>> 59).toNat = digit := by
      rw [UInt64.toNat_shiftRight, Nat.shiftRight_eq_div_pow]
      show n.toNat / 2 ^ 59 = digit
      omega
    have hnext : (n <<< 5).toNat = (16 * rest + 1) * (32 * q) := by
      rw [UInt64.toNat_shiftLeft, Nat.shiftLeft_eq]
      show n.toNat * 2 ^ 5 % 2 ^ 64 = _
      rw [Nat.mul_left_comm]
      omega
    obtain ⟨chars, hpush, hread⟩ := ih (Nat.le_of_succ_le hk) hrest (Nat.lt_of_succ_lt_succ hturns) hnext
    refine ⟨_, by rw [pushDigits, if_neg hstop, hpush]; rfl, fun id hid => ?_⟩
    have hvalue : id.toNat * (32 * p) + (p * digit + rest) = (id.toNat * 32 + digit) * p + rest := by ring
    have hsmall : id.toNat * 32 ≤ id.toNat * 32 * p := Nat.le_mul_of_pos_right _ hp
    obtain ⟨next, hnext, hfrom⟩ := @idFromStr_digit id (n >>> 59) (htop ▸ hdigit)
      (by rw [Nat.mul_assoc] at hsmall; omega) chars
    obtain ⟨read, hread, hsome⟩ := hread next (by rw [hnext, htop, ← hvalue]; exact hid)
    exact ⟨read, by rw [hread, hnext, htop, hvalue], hfrom.trans hsome⟩

theorem idFromStr_idAsString (id : UInt64) : ∃ text, idAsString id = some text ∧ idFromStr 0 text = some id := by
  by_cases hzero : id = 0
  · subst hzero
    exact ⟨[97], rfl, by decide⟩
  have htop : (id >>> 60).toNat = id.toNat / 2 ^ 60 := by
    rw [UInt64.toNat_shiftRight, Nat.shiftRight_eq_div_pow]
    rfl
  have hlt := id.toNat_lt
  have hn : ((id <<< 4) ||| 1).toNat = id.toNat % 2 ^ 60 * 16 + 1 := by
    have hor := Nat.shiftLeft_add_eq_or_of_lt (show 1 < 2 ^ 4 by decide) (id.toNat % 2 ^ 60)
    have hshift : (id <<< 4).toNat = id.toNat % 2 ^ 60 * 2 ^ 4 := by
      rw [UInt64.toNat_shiftLeft, Nat.shiftLeft_eq]
      exact Nat.mul_mod_mul_right _ _ (2 ^ 60)
    rw [Nat.shiftLeft_eq] at hor
    rw [UInt64.toNat_or, hshift]
    exact hor.symm
  rw [idAsString, if_neg hzero]
  by_cases hsmall : id >>> 60 = 0
  · rw [if_pos hsmall]
    have hid : id.toNat < 2 ^ 60 := by
      rw [hsmall] at htop
      have : (0 : UInt64).toNat = 0 := rfl
      omega
    rw [Nat.mod_eq_of_lt hid] at hn
    have hpos : 0 < id.toNat := Nat.pos_of_ne_zero fun h => hzero (UInt64.toNat_inj.mp h)
    have hne : ((id <<< 4) ||| 1).toNat ≠ 0 := by omega
    have hlow := (Nat.le_log2 hne).mpr (show 2 ^ 4 ≤ _ by omega)
    have hhigh := (Nat.log2_lt hne).mpr (show _ < 2 ^ 64 by omega)
    have hbound := @Nat.lt_log2_self ((id <<< 4) ||| 1).toNat
    dsimp only
    generalize ((id <<< 4) ||| 1).toNat.log2 = log at *
    obtain ⟨k, hle, hk⟩ : ∃ k ≤ 12, (63 - log) / 5 * 5 = 60 - 5 * k := ⟨12 - (63 - log) / 5, by omega⟩
    have hv : id.toNat < 2 ^ (5 * k) := by
      have hroom : 2 ^ (log + 1) ≤ 2 ^ (5 * k + 4) := Nat.pow_le_pow_right (by decide) (by omega)
      rw [Nat.pow_add _ (5 * k)] at hroom
      omega
    have hshift : (((id <<< 4) ||| 1) <<< .ofNat (60 - 5 * k)).toNat = (16 * id.toNat + 1) * 2 ^ (60 - 5 * k) := by
      have hcount : (UInt64.ofNat (60 - 5 * k)).toNat % 64 = 60 - 5 * k := by
        rw [UInt64.toNat_ofNat']
        omega
      have hfits : (id.toNat * 16 + 1) * 2 ^ (60 - 5 * k) < 2 ^ (5 * k + 4) * 2 ^ (60 - 5 * k) :=
        Nat.mul_lt_mul_of_pos_right (by rw [Nat.pow_add]; omega) (Nat.two_pow_pos _)
      rw [← Nat.pow_add, show 5 * k + 4 + (60 - 5 * k) = 64 by omega] at hfits
      rw [UInt64.toNat_shiftLeft, hcount, Nat.shiftLeft_eq, hn, Nat.mod_eq_of_lt hfits, Nat.mul_comm id.toNat]
    obtain ⟨chars, hpush, hread⟩ := pushDigits_spec hle hv (Nat.lt_succ_of_le hle) hshift
    obtain ⟨read, hread, hsome⟩ := hread 0 (by simpa using hlt)
    obtain rfl : read = id := UInt64.toNat_inj.mp (by simpa using hread)
    exact ⟨chars, by rw [hk, hpush], hsome⟩
  · have hmod : id.toNat % 2 ^ 60 < 2 ^ (5 * 12) := Nat.mod_lt _ (by decide)
    obtain ⟨chars, hpush, hread⟩ := pushDigits_spec (Nat.le_refl 12) hmod (show 12 < 13 by decide)
      (n := (id <<< 4) ||| 1) (by rw [hn]; ring)
    have hdigit : (id >>> 60).toNat < 32 := by omega
    obtain ⟨next, hnext, hfrom⟩ := idFromStr_digit hdigit (show (0 : UInt64).toNat * 32 < 2 ^ 64 by decide) chars
    have hvalue : next.toNat * 2 ^ (5 * 12) + id.toNat % 2 ^ 60 = id.toNat := by
      have : (0 : UInt64).toNat = 0 := rfl
      omega
    obtain ⟨read, hread, hsome⟩ := hread next (by omega)
    obtain rfl := UInt64.toNat_inj.mp (hread.trans hvalue)
    exact ⟨_, by rw [if_neg hsmall, hpush]; rfl, hfrom.trans hsome⟩

/-! ## Blob ids -/

inductive BlobClass where
  | reserved (accountId : UInt32) (expires : UInt64)
  | linked (accountId : UInt32) (collection : UInt8) (documentId : UInt32)

structure BlobSection where
  offsetStart : UInt64
  size : UInt64
  encoding : UInt8

structure BlobId where
  hash : BlobHash
  cls : BlobClass
  blobSection : Option BlobSection

def nextLeb128 (t : Leb128Int) (it : List UInt8) : Option (Nat × List UInt8) :=
  match t.fromLeb128It it with
  | (some value, it) => some (value, it)
  | (none, _) => none

namespace BlobId

def fromIter : List UInt8 → Option BlobId
  | [] => none
  | marker :: it =>
    if it.length < 32 then none
    else do
      let hash : BlobHash := Vector.ofFn fun i => it.getD i 0
      let (accountId, it) ← nextLeb128 u32 (it.drop 32)
      let (cls, it) ←
        if marker &&& 0x10 ≠ 0 then
          match it with
          | [] => none
          | collection :: it =>
            (nextLeb128 u32 it).map fun (documentId, it) =>
              (BlobClass.linked (.ofNat accountId) collection (.ofNat documentId), it)
        else (nextLeb128 u64 it).map fun (expires, it) => (BlobClass.reserved (.ofNat accountId) (.ofNat expires), it)
      if marker &&& 0x0F = 0 then some ⟨hash, cls, none⟩
      else
        let (offsetStart, it) ← nextLeb128 usize it
        let (size, _) ← nextLeb128 usize it
        some ⟨hash, cls, some ⟨.ofNat offsetStart, .ofNat size, (marker &&& 0x0F) - 1⟩⟩

def fromBase32 (value : List UInt8) : Option BlobId := fromIter (unbase32 value)

def marker (id : BlobId) : UInt8 :=
  (id.blobSection.elim 0 fun blobSection => blobSection.encoding + 1) |||
    match id.cls with
    | .linked .. => 0x10
    | .reserved .. => 0x20

def serializeAs (id : BlobId) : List UInt8 :=
  id.marker :: (id.hash.toList ++
    ((match id.cls with
      | .reserved accountId expires => encode accountId.toNat ++ encode expires.toNat
      | .linked accountId collection documentId =>
        encode accountId.toNat ++ collection :: encode documentId.toNat) ++
    match id.blobSection with
    | none => []
    | some blobSection => encode blobSection.offsetStart.toNat ++ encode blobSection.size.toNat))

end BlobId

theorem nextLeb128_encode {t : Leb128Int} (ht : t ≠ .u8) {value : Nat} (h : value < 2 ^ t.bits) :
    (∀ rest, nextLeb128 t (encode value ++ rest) = some (value, rest)) ∧
      nextLeb128 t (encode value) = some (value, []) := by
  have hread (rest : List UInt8) : nextLeb128 t (encode value ++ rest) = some (value, rest) := by
    rw [nextLeb128, ((t.roundTrips_iff h rest).mpr fun hu8 => absurd hu8 ht).2.2]
  exact ⟨hread, by simpa using hread []⟩

theorem hash_read (hash : BlobHash) (rest : List UInt8) :
    (Vector.ofFn fun i => (hash.toList ++ rest)[(i : Nat)]?.getD 0) = hash := by
  simpa using Store.ofFn_getD_toList hash rest

theorem marker_bits {encoding : UInt8} (h : encoding < 15) :
    (encoding + 1 ||| 0x10) &&& 0x0F = encoding + 1 ∧ (encoding + 1 ||| 0x20) &&& 0x0F = encoding + 1 ∧
      (encoding + 1 ||| 0x10) &&& 0x10 ≠ 0 ∧ (encoding + 1 ||| 0x20) &&& 0x10 = 0 ∧ encoding + 1 ≠ 0 := by
  have hall : ∀ i < 15, (UInt8.ofNat i + 1 ||| 0x10) &&& 0x0F = UInt8.ofNat i + 1 ∧
      (UInt8.ofNat i + 1 ||| 0x20) &&& 0x0F = UInt8.ofNat i + 1 ∧ (UInt8.ofNat i + 1 ||| 0x10) &&& 0x10 ≠ 0 ∧
        (UInt8.ofNat i + 1 ||| 0x20) &&& 0x10 = 0 ∧ UInt8.ofNat i + 1 ≠ 0 := by decide
  simpa using hall encoding.toNat (UInt8.lt_iff_toNat_lt.mp h)

theorem BlobId.fromBase32_serializeAs (id : BlobId)
    (h : ∀ blobSection, id.blobSection = some blobSection → blobSection.encoding < 15) :
    fromBase32 (base32 id.serializeAs) = some id := by
  obtain ⟨hash, cls, blobSection⟩ := id
  rw [fromBase32, unbase32_base32]
  have read32 (value : UInt32) := nextLeb128_encode (t := u32) (by decide) value.toNat_lt
  have read64 (value : UInt64) := nextLeb128_encode (t := u64) (by decide) value.toNat_lt
  have readUsize (value : UInt64) := nextLeb128_encode (t := usize) (by decide) value.toNat_lt
  have hbits : (32 : UInt8) &&& 16 = 0 ∧ (32 : UInt8) &&& 15 = 0 ∧ (16 : UInt8) &&& 15 = 0 := by decide
  cases cls with
  | reserved accountId expires =>
    cases blobSection with
    | none => simp [serializeAs, marker, fromIter, hash_read, read32, read64, hbits]
    | some blobSection =>
      have hbits := marker_bits (h _ rfl)
      simp [serializeAs, marker, fromIter, hash_read, read32, read64, readUsize, hbits]
  | linked accountId collection documentId =>
    cases blobSection with
    | none => simp [serializeAs, marker, fromIter, hash_read, read32, hbits]
    | some blobSection =>
      have hbits := marker_bits (h _ rfl)
      simp [serializeAs, marker, fromIter, hash_read, read32, readUsize, hbits]

/-! ## States -/

namespace State

def displayText : State → List UInt8
  | .initial => [110]
  | .exact id => 115 :: base32 (encode id)
  | .intermediate fromId toId itemsSent =>
    114 :: base32 (encode fromId ++ encode (toId - fromId) ++ encode itemsSent)

def parseText : List UInt8 → Option State
  | 110 :: _ => some .initial
  | 115 :: chs => (u64.fromLeb128It (unbase32 chs)).1.map .exact
  | 114 :: chs =>
    let (fromId, it) := u64.fromLeb128It (unbase32 chs)
    let (toId, it) := u64.fromLeb128It it
    match fromId, toId, (usize.fromLeb128It it).1 with
    | some fromId, some toId, some itemsSent =>
      if 0 < itemsSent then some (.intermediate fromId (min (fromId + toId) (2 ^ 64 - 1)) itemsSent) else none
    | _, _, _ => none
  | _ => none

/-- The numbers fit, and a list of changes has been sent in part. -/
def Valid : State → Prop
  | .initial => True
  | .exact id => id < 2 ^ 64
  | .intermediate fromId toId itemsSent =>
    fromId ≤ toId ∧ toId < 2 ^ 64 ∧ 0 < itemsSent ∧ itemsSent < 2 ^ 64

theorem parseText_displayText {s : State} (h : s.Valid) : parseText s.displayText = some s := by
  have hread (t : Leb128Int) (ht : t.bits = 64) {value : Nat} (hvalue : value < 2 ^ 64) (rest : List UInt8) :
      t.fromLeb128It (encode value ++ rest) = (some value, rest) :=
    ((t.roundTrips_iff (ht ▸ hvalue) rest).mpr fun hu8 => by rw [hu8] at ht; cases ht).2.2
  cases s with
  | initial => rfl
  | exact id =>
    have hid := hread u64 rfl h []
    rw [append_nil] at hid
    simp [displayText, parseText, unbase32_base32, hid]
  | intermediate fromId toId itemsSent =>
    obtain ⟨hle, hto, hpos, hsent⟩ := h
    have hend := hread usize rfl hsent []
    rw [append_nil] at hend
    simp only [displayText, parseText, unbase32_base32, append_assoc, hread u64 rfl (Nat.lt_of_le_of_lt hle hto),
      hread u64 rfl (Nat.lt_of_le_of_lt (Nat.sub_le toId fromId) hto), hend, hpos, if_true]
    rw [Nat.add_sub_cancel' hle, Nat.min_eq_left (Nat.le_sub_one_of_lt hto)]

end State

/-! ## Round trips -/

/-- The values that satisfy `p` are read back, and no two of them have the same text. -/
def ReadsBack {α : Type} (p : α → Prop) (text : α → List UInt8) (parse : List UInt8 → Option α) : Prop :=
  (∀ a, p a → parse (text a) = some a) ∧ ∀ a b, p a → p b → text a = text b → a = b

theorem readsBack {α : Type} {p : α → Prop} {text : α → List UInt8} {parse : List UInt8 → Option α}
    (h : ∀ a, p a → parse (text a) = some a) : ReadsBack p text parse := by
  refine ⟨h, fun a b ha hb htext => Option.some.inj ?_⟩
  rw [← h a ha, htext, h b hb]

theorem tokens_exact :
    (∀ id, (idAsString id).isSome) ∧ ReadsBack (fun _ => True) (fun id => (idAsString id).getD []) (idFromStr 0) ∧
      ReadsBack (fun id => ∀ blobSection, id.blobSection = some blobSection → blobSection.encoding < 15)
        (fun id => base32 id.serializeAs) BlobId.fromBase32 ∧
      ReadsBack State.Valid State.displayText State.parseText := by
  refine ⟨fun id => ?_, readsBack fun id _ => ?_, readsBack BlobId.fromBase32_serializeAs,
    readsBack fun _ => State.parseText_displayText⟩
  all_goals
    obtain ⟨text, htext, hread⟩ := idFromStr_idAsString id
    simp [htext, hread]

end Bearmail.Jmap
