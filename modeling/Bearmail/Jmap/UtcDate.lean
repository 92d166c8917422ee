import Bearmail.Lib.Gregorian

/-!
# Dates

`UTCDate` of `jmap-proto/src/types/date.rs`: the date of a timestamp, the timestamp of a date, and its text.
-/

namespace Bearmail.Jmap

open Gregorian
open List Function

structure UTCDate where
  year : UInt16
  month : UInt8
  day : UInt8
  hour : UInt8
  minute : UInt8
  second : UInt8
  tzBeforeGmt : Bool
  tzHour : UInt8
  tzMinute : UInt8
  deriving DecidableEq

variable {n : ℕ} {t : ℤ}

namespace UTCDate

/-! ## Timestamps -/

def asU8 (value : ℤ) : UInt8 := UInt8.ofNat (value % 256).toNat

def asU16 (value : ℤ) : UInt16 := UInt16.ofNat (value % 65536).toNat

/-- The divisions round towards zero. No unsigned subtraction goes below zero. -/
def fromTimestamp (timestamp : ℤ) : UTCDate :=
  let z := timestamp.tdiv 86400 + 719468
  let seconds := timestamp.tmod 86400
  let era := (if 0 ≤ z then z else z - 146096).tdiv 146097
  let doe : ℕ := ((z - era * 146097) % 2 ^ 64).toNat
  let yoe : ℕ := (doe - doe / 1460 + doe / 36524 - doe / 146096) / 365
  let y := (yoe : ℤ) + era * 400
  let doy : ℕ := doe - (365 * yoe + yoe / 4 - yoe / 100)
  let mp : ℕ := (5 * doy + 2) / 153
  let d : ℕ := doy - (153 * mp + 2) / 5 + 1
  let m : ℕ := if mp < 10 then mp + 3 else mp - 9
  let h := seconds.tdiv 3600
  let mn := (seconds.tdiv 60).tmod 60
  let s := seconds.tmod 60
  { year := asU16 (y + if m ≤ 2 then 1 else 0)
    month := asU8 m
    day := asU8 d
    hour := asU8 h
    minute := asU8 mn
    second := asU8 s
    tzBeforeGmt := false
    tzHour := 0
    tzMinute := 0 }

def timestamp (date : UTCDate) : ℤ :=
  let month := date.month.toUInt32
  let yearBase := 4800
  let mAdj := month - 3
  let carry := if month < mAdj then 1 else 0
  let adjust := if 0 < carry then 12 else 0
  let yAdj := (date.year.toNat : ℤ) + yearBase - carry
  let monthDays := ((mAdj + adjust) * 62719 + 769) / 2048
  let leapDays := yAdj.tdiv 4 - yAdj.tdiv 100 + yAdj.tdiv 400
  (yAdj * 365 + leapDays + (monthDays.toNat : ℤ) + ((date.day.toNat : ℤ) - 1) - 2472632) * 86400 +
    (date.hour.toNat : ℤ) * 3600 +
    (date.minute.toNat : ℤ) * 60 +
    (date.second.toNat : ℤ) +
    ((date.tzHour.toNat : ℤ) * 3600 + (date.tzMinute.toNat : ℤ) * 60) * if date.tzBeforeGmt then 1 else -1

/-! ## The text of a date -/

def padded (width n : ℕ) : List Char := (Nat.toDigits 10 n).leftpad width '0'

def text (date : UTCDate) : List Char :=
  let zone :=
    if date.tzHour ≠ 0 ∨ date.tzMinute ≠ 0 then
      (if date.tzBeforeGmt ∧ (0 < date.tzHour ∨ 0 < date.tzMinute) then '-' else '+') ::
        (padded 2 date.tzHour.toNat ++ ':' :: padded 2 date.tzMinute.toNat)
    else ['Z']
  padded 4 date.year.toNat ++ '-' :: (padded 2 date.month.toNat ++ '-' :: (padded 2 date.day.toNat ++
    'T' :: (padded 2 date.hour.toNat ++ ':' :: (padded 2 date.minute.toNat ++
      ':' :: (padded 2 date.second.toNat ++ zone)))))

def encode (text : List Char) : List UInt8 := text.map fun c => UInt8.ofNat c.toNat

def display (date : UTCDate) : List UInt8 := encode date.text

/-! ## Reading a date -/

structure Scan where
  pos : ℕ
  parts : ℕ → ℕ
  partsSizes : ℕ → ℕ
  skipDigits : Bool
  isPlus : Bool

def Scan.init : Scan where
  pos := 0
  parts _ := 0
  partsSizes part := if part = 0 then 4 else 2
  skipDigits := false
  isPlus := true

def Scan.byte (s : Scan) (ch : UInt8) : Option Scan :=
  if 48 ≤ ch ∧ ch ≤ 57 then
    if s.skipDigits then some s
    else if 0 < s.partsSizes s.pos then
      let size := s.partsSizes s.pos - 1
      some { s with
        partsSizes := Function.update s.partsSizes s.pos size
        parts := Function.update s.parts s.pos (s.parts s.pos + (ch - 48).toNat * 10 ^ size) }
    else none
  else if ch = 45 then
    if s.pos ≤ 1 then some { s with pos := s.pos + 1 }
    else if s.pos = 5 then some { s with pos := s.pos + 1, isPlus := false, skipDigits := false }
    else none
  else if ch = 84 ∧ s.pos = 2 then some { s with pos := s.pos + 1 }
  else if ch = 58 ∧ (s.pos = 3 ∨ s.pos = 4 ∨ s.pos = 6) then some { s with pos := s.pos + 1 }
  else if ch = 43 ∧ s.pos = 5 then some { s with pos := s.pos + 1, skipDigits := false }
  else if ch = 46 ∧ s.pos = 5 then some { s with skipDigits := true }
  else if ch = 90 ∨ ch = 122 then some s
  else none

def Scan.run (s : Scan) : List UInt8 → Scan
  | [] => s
  | ch :: rest =>
    match s.byte ch with
    | some s => s.run rest
    | none => s

def Scan.date (s : Scan) : Option UTCDate :=
  if 5 ≤ s.pos then
    some
      { year := UInt16.ofNat (s.parts 0)
        month := UInt8.ofNat (s.parts 1)
        day := UInt8.ofNat (s.parts 2)
        hour := UInt8.ofNat (s.parts 3)
        minute := UInt8.ofNat (s.parts 4)
        second := UInt8.ofNat (s.parts 5)
        tzHour := UInt8.ofNat (s.parts 6)
        tzMinute := UInt8.ofNat (s.parts 7)
        tzBeforeGmt := !s.isPlus }
  else none

def fromStr (text : List UInt8) : Option UTCDate := (Scan.init.run text).date

/-! ## The date of a timestamp -/

/-- A day of the year `y`, for a timestamp in seconds from 1970 on. -/
def IsInYear (t : ℤ) (y : ℕ) : Prop :=
  ∃ m d, IsDate y m d ∧ (dayNumber y m d : ℤ) - dayNumber 1970 1 1 = t / 86400

structure InRange (date : UTCDate) : Prop where
  year : date.year.toNat ≤ 9999
  month : 1 ≤ date.month.toNat ∧ date.month.toNat ≤ 12
  day : 1 ≤ date.day.toNat ∧ date.day.toNat ≤ 31
  hour : date.hour.toNat ≤ 23
  minute : date.minute.toNat ≤ 59
  second : date.second.toNat ≤ 59
  tzHour : date.tzHour.toNat ≤ 23
  tzMinute : date.tzMinute.toNat ≤ 59

theorem asU8_toNat (h : n < 256) : (asU8 n).toNat = n := by
  rw [asU8, UInt8.toNat_ofNat']
  omega

theorem asU8_neg (h : n ≤ 100) (hle : (asU8 (-n)).toNat ≤ 59) : n = 0 := by
  rw [asU8, UInt8.toNat_ofNat'] at hle
  omega

theorem asU16_toNat (h : n < 65536) : (asU16 n).toNat = n := by
  rw [asU16, UInt16.toNat_ofNat']
  omega

theorem fromTimestamp_date {z : ℕ} (hz : t.tdiv 86400 + 719468 = z) (hlt : z < 3660000) :
    IsDate (fromTimestamp t).year.toNat (fromTimestamp t).month.toNat (fromTimestamp t).day.toNat ∧
      dayNumber (fromTimestamp t).year.toNat (fromTimestamp t).month.toNat (fromTimestamp t).day.toNat =
        z + 60 := by
  obtain ⟨c, q, k, j, hparts⟩ := exists_parts (Nat.mod_lt z (show 0 < 146097 by decide))
  have hera : (if (0 : ℤ) ≤ z then (z : ℤ) else z - 146096).tdiv 146097 = (z / 146097 : ℕ) := by
    rfl
  have hdoe : (((z : ℤ) - (z / 146097 : ℕ) * 146097) % 2 ^ 64).toNat = z % 146097 := by
    omega
  obtain ⟨hdate, hnumber⟩ := hparts.date (z / 146097)
  have hj := hparts.day_le
  obtain ⟨hmp, -, hupper⟩ := month_bounds hj rfl
  have hyear : 400 * (z / 146097) + (100 * c + 4 * q + k) < 65000 := by
    have := hparts.century
    have := hparts.four
    have := hparts.year
    omega
  simp only [fromTimestamp, hz, hera, hdoe, hparts.yoe_eq, hparts.doy_eq]
  generalize (5 * j + 2) / 153 = mp at *
  have hy : ((100 * c + 4 * q + k : ℕ) : ℤ) + (z / 146097 : ℕ) * 400 +
      (if (if mp < 10 then mp + 3 else mp - 9) ≤ 2 then 1 else 0) =
      ((if mp < 10 then 400 * (z / 146097) + (100 * c + 4 * q + k)
        else 400 * (z / 146097) + (100 * c + 4 * q + k) + 1 : ℕ) : ℤ) := by
    by_cases hlt : mp < 10
    · rw [if_pos hlt, if_pos hlt]
      omega
    · rw [if_neg hlt, if_neg hlt]
      omega
  rw [hy, asU16_toNat (by split <;> omega), asU8_toNat (by split <;> omega), asU8_toNat (by omega)]
  exact ⟨hdate, by rw [hnumber, Nat.div_add_mod]⟩

theorem fromTimestamp_time (h : 0 ≤ t.tmod 86400) :
    (fromTimestamp t).hour.toNat ≤ 23 ∧ (fromTimestamp t).minute.toNat ≤ 59 ∧
      (fromTimestamp t).second.toNat ≤ 59 ∧
      ((fromTimestamp t).hour.toNat : ℤ) * 3600 + ((fromTimestamp t).minute.toNat : ℤ) * 60 +
        ((fromTimestamp t).second.toNat : ℤ) = t.tmod 86400 := by
  obtain ⟨s, hs⟩ := Int.eq_ofNat_of_zero_le h
  have hlt : s < 86400 := by
    have := Int.tmod_lt_of_pos t (show (0 : ℤ) < 86400 by decide)
    omega
  have hhour : (s : ℤ).tdiv 3600 = (s / 3600 : ℕ) := rfl
  have hminute : ((s : ℤ).tdiv 60).tmod 60 = (s / 60 % 60 : ℕ) := rfl
  have hsecond : (s : ℤ).tmod 60 = (s % 60 : ℕ) := rfl
  simp only [fromTimestamp, hs, hhour, hminute, hsecond]
  rw [asU8_toNat (by omega), asU8_toNat (by omega), asU8_toNat (by omega)]
  refine ⟨by omega, by omega, by omega, by omega⟩

/-- Before 1970 the hour, the minute or the second of a timestamp inside a day is negative. -/
theorem not_inRange_fromTimestamp (h : t.tmod 86400 < 0) : ¬(fromTimestamp t).InRange := by
  intro hrange
  have hgt := Int.lt_tmod_of_pos t (show (0 : ℤ) < 86400 by decide)
  obtain ⟨n, hn⟩ : ∃ n : ℕ, t.tmod 86400 = -(n : ℤ) := ⟨(t.tmod 86400).natAbs, by omega⟩
  have hhour : (-(n : ℤ)).tdiv 3600 = -((n / 3600 : ℕ) : ℤ) := Int.neg_tdiv ..
  have hminute : ((-(n : ℤ)).tdiv 60).tmod 60 = -((n / 60 % 60 : ℕ) : ℤ) := by
    rw [Int.neg_tdiv, Int.neg_tmod]
    rfl
  have hsecond : (-(n : ℤ)).tmod 60 = -((n % 60 : ℕ) : ℤ) := Int.neg_tmod ..
  obtain ⟨-, -, -, hh, hmn, hs, -, -⟩ := hrange
  simp only [fromTimestamp, hn, hhour, hminute, hsecond] at hh hmn hs
  have hhzero := asU8_neg (by omega) (hh.trans (by decide))
  have hmzero := asU8_neg (by omega) hmn
  have hszero := asU8_neg (by omega) hs
  omega

/-! ## The timestamp of a date -/

theorem march_month {month : UInt32} (h : 1 ≤ month.toNat ∧ month.toNat ≤ 12) :
    (month < month - 3 ↔ month.toNat ≤ 2) ∧
      (((month - 3 + if month.toNat ≤ 2 then 12 else 0) * 62719 + 769) / 2048).toNat =
        (153 * (if month.toNat ≤ 2 then month.toNat + 9 else month.toNat - 3) + 2) / 5 := by
  obtain ⟨k, hk⟩ : ∃ k, k = month.toNat := ⟨_, rfl⟩
  obtain rfl : month = UInt32.ofNat k := by rw [hk, UInt32.ofNat_toNat]
  rw [← hk] at h
  obtain ⟨hone, htwelve⟩ := h
  interval_cases k <;> decide

theorem march_days (y : ℕ) : ((y : ℤ) + 4800) * 365 +
        (((y : ℤ) + 4800).tdiv 4 - ((y : ℤ) + 4800).tdiv 100 + ((y : ℤ) + 4800).tdiv 400) =
      ((365 * y + y / 4 + y / 400 - y / 100 : ℕ) : ℤ) + 1753164 := by
  have hfour : ((y : ℤ) + 4800).tdiv 4 = ((y + 4800) / 4 : ℕ) := rfl
  have hcentury : ((y : ℤ) + 4800).tdiv 100 = ((y + 4800) / 100 : ℕ) := rfl
  have hcycle : ((y : ℤ) + 4800).tdiv 400 = ((y + 4800) / 400 : ℕ) := rfl
  rw [hfour, hcentury, hcycle, show (y + 4800) / 4 = y / 4 + 1200 by omega,
    show (y + 4800) / 100 = y / 100 + 48 by omega, show (y + 4800) / 400 = y / 400 + 12 by omega]
  omega

variable {date : UTCDate}

theorem timestamp_eq (hyear : 1 ≤ date.year.toNat)
    (hdate : IsDate date.year.toNat date.month.toNat date.day.toNat) :
    date.timestamp = ((dayNumber date.year.toNat date.month.toNat date.day.toNat : ℤ) - 719528) * 86400 +
        (date.hour.toNat : ℤ) * 3600 + (date.minute.toNat : ℤ) * 60 + (date.second.toNat : ℤ) +
        ((date.tzHour.toNat : ℤ) * 3600 + (date.tzMinute.toNat : ℤ) * 60) *
          if date.tzBeforeGmt then 1 else -1 := by
  have hm : date.month.toUInt32.toNat = date.month.toNat := rfl
  obtain ⟨hcarry, hdays⟩ := march_month (hm ▸ hdate.month)
  have hday := hdate.day.1
  rw [hm] at hcarry hdays
  simp only [timestamp, hcarry]
  by_cases hmonth : date.month.toNat ≤ 2
  · obtain ⟨y, hy⟩ : ∃ y, date.year.toNat = y + 1 := ⟨_, (Nat.sub_add_cancel hyear).symm⟩
    have hyadj : ((y + 1 : ℕ) : ℤ) + 4800 - 1 = (y : ℤ) + 4800 := by omega
    have hnumber := dayNumber_january (y := y) date.day.toNat ⟨hdate.month.1, hmonth⟩
    simp only [if_pos hmonth] at hdays
    simp only [if_pos hmonth, hy, hnumber, hyadj, march_days y, zero_lt_one, if_true, hdays, marchNumber]
    omega
  · have hnumber := dayNumber_march (y := date.year.toNat) date.day.toNat ⟨by omega, hdate.month.2⟩
    simp only [if_neg hmonth] at hdays
    simp only [if_neg hmonth, hnumber, sub_zero, march_days, lt_irrefl, if_false, hdays, marchNumber]
    omega

/-! ## The text read back -/

/-- The scan after `count` more digits of its part, `value` in all. -/
def Scan.enter (s : Scan) (count value : ℕ) : Scan :=
  { s with
    partsSizes := Function.update s.partsSizes s.pos (s.partsSizes s.pos - count)
    parts := Function.update s.parts s.pos (s.parts s.pos + value * 10 ^ (s.partsSizes s.pos - count)) }

theorem Scan.enter_enter {s : Scan} {a b : ℕ} (v w : ℕ) (h : a + b ≤ s.partsSizes s.pos) :
    (s.enter a v).enter b w = s.enter (a + b) (10 ^ b * v + w) := by
  have hpower : 10 ^ (s.partsSizes s.pos - a) = 10 ^ b * 10 ^ (s.partsSizes s.pos - (a + b)) := by
    rw [← pow_add]
    congr 1
    omega
  simp only [Scan.enter, update_self, update_idem]
  rw [hpower, Nat.sub_sub, Nat.add_mul, Nat.add_assoc, ← Nat.mul_assoc, Nat.mul_comm v]

theorem byte_digit {s : Scan} {c : Char} (hc : c.isDigit = true) (hskip : s.skipDigits = false)
    (hsize : 0 < s.partsSizes s.pos) :
    s.byte (UInt8.ofNat c.toNat) = some (s.enter 1 (c.toNat - '0'.toNat)) := by
  have hlt := Char.isDigit_iff_toNat.mp hc
  have hnine : '9'.toNat = 57 := rfl
  have hcode : (UInt8.ofNat c.toNat).toNat = c.toNat := by
    rw [UInt8.toNat_ofNat']
    omega
  have hdigit : 48 ≤ UInt8.ofNat c.toNat ∧ UInt8.ofNat c.toNat ≤ 57 := by
    simp only [UInt8.le_iff_toNat_le, hcode]
    exact ⟨hlt.1, hlt.2⟩
  have hvalue : (UInt8.ofNat c.toNat - 48).toNat = c.toNat - '0'.toNat := by
    rw [UInt8.toNat_sub_of_le _ _ hdigit.1, hcode]
    rfl
  rw [Scan.byte, if_pos hdigit, if_neg (by simp [hskip]), if_pos hsize, hvalue]
  rfl

attribute [local simp] Scan.run

theorem run_digits {digits : List Char} (hdigits : ∀ c ∈ digits, c.isDigit = true) {s : Scan}
    (hskip : s.skipDigits = false) (hsize : digits.length ≤ s.partsSizes s.pos) (rest : List UInt8) :
    s.run (encode digits ++ rest) = (s.enter digits.length (Nat.ofDigitChars 10 digits 0)).run rest := by
  induction digits generalizing s with
  | nil => simp [encode, Scan.enter]
  | cons c digits ih =>
    rw [length_cons] at hsize
    have hbyte := byte_digit (hdigits c mem_cons_self) hskip (by omega)
    have hsizes : (s.enter 1 (c.toNat - '0'.toNat)).partsSizes s.pos = s.partsSizes s.pos - 1 :=
      update_self ..
    have hrun : s.run (encode (c :: digits) ++ rest) =
        (s.enter 1 (c.toNat - '0'.toNat)).run (encode digits ++ rest) := by
      rw [encode, map_cons, cons_append, Scan.run, hbyte]
      rfl
    rw [hrun, @ih (fun c hmem => hdigits c (mem_cons_of_mem _ hmem)) (s.enter 1 _) hskip (hsizes ▸ by omega),
      Scan.enter_enter _ _ (by omega), Nat.ofDigitChars_cons, Nat.mul_zero, Nat.zero_add, length_cons,
      Nat.add_comm 1, @Nat.ofDigitChars_eq_ofDigitChars_zero digits (c.toNat - _)]

theorem run_padded {width : ℕ} (hn : n < 10 ^ width) {s : Scan} (hskip : s.skipDigits = false)
    (hsize : s.partsSizes s.pos = width) (hpart : s.parts s.pos = 0) (hpos : 0 < width)
    (rest : List UInt8) :
    s.run (encode (padded width n) ++ rest) =
      Scan.run { s with
        partsSizes := Function.update s.partsSizes s.pos 0
        parts := Function.update s.parts s.pos n } rest := by
  have hdigits : ∀ c ∈ padded width n, c.isDigit = true := by
    intro c hc
    rcases mem_append.mp hc with hzero | hdigit
    · rw [eq_of_mem_replicate hzero]
      rfl
    · exact Nat.isDigit_of_mem_toDigits (by decide) (by decide) hdigit
  have hle : (Nat.toDigits 10 n).length ≤ width := (Nat.length_toDigits_le_iff (by decide) hpos).mpr hn
  have hlength : (padded width n).length = width := by
    rw [padded, length_leftpad, max_eq_left hle]
  have hvalue : Nat.ofDigitChars 10 (padded width n) 0 = n := by
    rw [padded, List.leftpad, Nat.ofDigitChars_append, Nat.ofDigitChars_replicate_zero, Nat.mul_zero,
      Nat.ofDigitChars_ten_toDigits]
  rw [run_digits hdigits hskip (by rw [hlength, hsize]), hlength, hvalue, Scan.enter, hsize, hpart, Nat.sub_self,
    Nat.zero_add, Nat.pow_zero, Nat.mul_one]

theorem encode_append (a b : List Char) : encode (a ++ b) = encode a ++ encode b := List.map_append

theorem encode_cons (c : Char) (a : List Char) : encode (c :: a) = UInt8.ofNat c.toNat :: encode a := rfl

def fields (date : UTCDate) : List ℕ :=
  [date.year.toNat, date.month.toNat, date.day.toNat, date.hour.toNat, date.minute.toNat, date.second.toNat,
    date.tzHour.toNat, date.tzMinute.toNat]

/-- The scan in the part `pos`, with the ones before it full. -/
def Scan.at (values : List ℕ) (pos : ℕ) (isPlus : Bool) : Scan where
  pos := pos
  parts part := if part < pos then values.getD part 0 else 0
  partsSizes part := if part < pos then 0 else if part = 0 then 4 else 2
  skipDigits := false
  isPlus := isPlus

theorem at_full {values : List ℕ} {pos : ℕ} {isPlus : Bool} {width : ℕ}
    (hvalue : values.getD pos 0 < 10 ^ width) (hwidth : width = if pos = 0 then 4 else 2)
    (rest : List UInt8) :
    (Scan.at values pos isPlus).run (encode (padded width (values.getD pos 0)) ++ rest) =
      Scan.run { Scan.at values (pos + 1) isPlus with pos := pos } rest := by
  have hsize : (Scan.at values pos isPlus).partsSizes pos = width := by
    rw [hwidth]
    exact if_neg (lt_irrefl pos)
  have hpart : (Scan.at values pos isPlus).parts pos = 0 := if_neg (lt_irrefl pos)
  have hpos : 0 < width := by
    rw [hwidth]
    split <;> decide
  rw [run_padded hvalue rfl hsize hpart hpos]
  congr 1
  simp only [Scan.at, Scan.mk.injEq, true_and, and_true]
  constructor
  all_goals
    funext part
    by_cases hpart : part = pos
    · subst hpart
      simp
    · have hlt : part < pos + 1 ↔ part < pos := by omega
      simp [update_of_ne hpart, hlt]

theorem run_field {values : List ℕ} {pos width : ℕ} {isPlus isPlus' : Bool} {sep : Char}
    (hvalue : values.getD pos 0 < 10 ^ width) (hwidth : width = if pos = 0 then 4 else 2)
    (hsep : Scan.byte { Scan.at values (pos + 1) isPlus with pos := pos } (UInt8.ofNat sep.toNat) =
      some (Scan.at values (pos + 1) isPlus'))
    (rest : List UInt8) :
    (Scan.at values pos isPlus).run
        (encode (padded width (values.getD pos 0)) ++ UInt8.ofNat sep.toNat :: rest) =
      (Scan.at values (pos + 1) isPlus').run rest := by
  rw [at_full hvalue hwidth, Scan.run, hsep]

theorem run_date (h : date.InRange) (rest : List UInt8) :
    Scan.init.run (encode (padded 4 date.year.toNat) ++
      UInt8.ofNat '-'.toNat :: (encode (padded 2 date.month.toNat) ++
      UInt8.ofNat '-'.toNat :: (encode (padded 2 date.day.toNat) ++
      UInt8.ofNat 'T'.toNat :: (encode (padded 2 date.hour.toNat) ++
      UInt8.ofNat ':'.toNat :: (encode (padded 2 date.minute.toNat) ++
      UInt8.ofNat ':'.toNat :: (encode (padded 2 date.second.toNat) ++ rest)))))) =
      Scan.run { Scan.at date.fields 6 true with pos := 5 } rest := by
  obtain ⟨hyear, hmonth, hday, hhour, hminute, hsecond, -, -⟩ := h
  have hinit : Scan.init = Scan.at date.fields 0 true := rfl
  rw [hinit]
  refine (run_field (show date.year.toNat < 10 ^ 4 by omega) rfl rfl _).trans ?_
  refine (run_field (show date.month.toNat < 10 ^ 2 by omega) rfl rfl _).trans ?_
  refine (run_field (show date.day.toNat < 10 ^ 2 by omega) rfl rfl _).trans ?_
  refine (run_field (show date.hour.toNat < 10 ^ 2 by omega) rfl rfl _).trans ?_
  refine (run_field (show date.minute.toNat < 10 ^ 2 by omega) rfl rfl _).trans ?_
  exact at_full (show date.second.toNat < 10 ^ 2 by omega) rfl _

theorem run_zone (h : date.InRange) (isPlus : Bool) {sep : Char}
    (hsep : Scan.byte { Scan.at date.fields 6 true with pos := 5 } (UInt8.ofNat sep.toNat) =
      some (Scan.at date.fields 6 isPlus)) :
    Scan.run { Scan.at date.fields 6 true with pos := 5 } (UInt8.ofNat sep.toNat ::
      (encode (padded 2 date.tzHour.toNat) ++
      UInt8.ofNat ':'.toNat :: (encode (padded 2 date.tzMinute.toNat)))) =
      { Scan.at date.fields 8 isPlus with pos := 7 } := by
  obtain ⟨-, -, -, -, -, -, htzHour, htzMinute⟩ := h
  rw [Scan.run, hsep]
  refine (run_field (show date.tzHour.toNat < 10 ^ 2 by omega) rfl rfl _).trans ?_
  have hfull := @at_full date.fields 7 isPlus 2 (show date.tzMinute.toNat < 10 ^ 2 by omega) rfl []
  rwa [List.append_nil] at hfull

theorem fromStr_display (h : date.InRange) : fromStr date.display =
      some { date with tzBeforeGmt := date.tzBeforeGmt && decide (date.tzHour ≠ 0 ∨ date.tzMinute ≠ 0) } := by
  simp only [fromStr, display, text, encode_append, encode_cons, run_date h]
  by_cases hzone : date.tzHour ≠ 0 ∨ date.tzMinute ≠ 0
  · have hpos : 0 < date.tzHour ∨ 0 < date.tzMinute := by
      simpa only [UInt8.pos_iff_ne_zero] using hzone
    rw [if_pos hzone]
    by_cases hbefore : date.tzBeforeGmt = true
    · rw [if_pos ⟨hbefore, hpos⟩, encode_cons, encode_append, encode_cons, run_zone h false rfl]
      simp [Scan.date, Scan.at, fields, hbefore, hzone]
    · rw [if_neg (fun h => hbefore h.1), encode_cons, encode_append, encode_cons, run_zone h true rfl]
      simp [Scan.date, Scan.at, fields, hbefore]
  · rw [if_neg hzone]
    obtain ⟨hhour, hminute⟩ : date.tzHour = 0 ∧ date.tzMinute = 0 := by
      rwa [not_or, not_not, not_not] at hzone
    have hend : Scan.run { Scan.at date.fields 6 true with pos := 5 } (encode ['Z']) =
        { Scan.at date.fields 6 true with pos := 5 } := rfl
    rw [hend]
    simp [Scan.date, Scan.at, fields, hhour, hminute]

theorem timestamp_fromStr_display (h : date.InRange) :
    ∃ date', fromStr date.display = some date' ∧ date'.timestamp = date.timestamp := by
  refine ⟨_, fromStr_display h, ?_⟩
  by_cases hzone : date.tzHour ≠ 0 ∨ date.tzMinute ≠ 0
  · rw [decide_eq_true hzone, Bool.and_true]
  · obtain ⟨hhour, hminute⟩ : date.tzHour = 0 ∧ date.tzMinute = 0 := by
      rwa [not_or, not_not, not_not] at hzone
    simp only [timestamp, hhour, hminute, UInt8.toNat_zero, Nat.cast_zero, zero_mul, add_zero]

/-! ## There and back -/

/-- The date of a timestamp is one of the calendar and stands for it. -/
def Exact (t : ℤ) : Prop :=
  ((fromTimestamp t).InRange ∧
      IsDate (fromTimestamp t).year.toNat (fromTimestamp t).month.toNat (fromTimestamp t).day.toNat) ∧
    (fromTimestamp t).timestamp = t

/-- The day of a timestamp is rounded to the one after it before 1970, if it is not at its start. -/
theorem tmod_day (t : ℤ) : t.tmod 86400 = t % 86400 - if 0 ≤ t ∨ t % 86400 = 0 then 0 else 86400 := by
  rw [Int.tmod_eq_emod]
  simp only [Int.dvd_iff_emod_eq_zero]
  split <;> rfl

theorem exact_iff {y : ℕ} (h : IsInYear t y) (hone : 1 ≤ y) (hlast : y ≤ 9999) :
    Exact t ↔ 0 ≤ t ∨ t % 86400 = 0 := by
  have hmod := tmod_day t
  have hdiv := Int.mul_tdiv_add_tmod t 86400
  constructor
  · rintro ⟨⟨hrange, -⟩, -⟩
    by_contra hneg
    exact not_inRange_fromTimestamp (by omega) hrange
  · intro hround
    rw [if_pos hround] at hmod
    obtain ⟨m, d, hdate, hnumber⟩ := h
    rw [dayNumber_epoch] at hnumber
    -- the days of the timestamp in years from March on
    obtain ⟨z, hz⟩ : ∃ z : ℕ, t.tdiv 86400 + 719468 = z := by
      refine ⟨(t.tdiv 86400 + 719468).toNat, (Int.toNat_of_nonneg ?_).symm⟩
      have hfirst := daysBeforeYear_mono hone
      have hdays : daysBeforeYear 1 ≤ dayNumber y m d := by
        rw [dayNumber]
        omega
      have hyear : daysBeforeYear 1 = 366 := rfl
      omega
    have hlt : z < 3660000 := by
      have hbefore := hdate.before_lt
      have hlast : daysBeforeYear (y + 1) ≤ daysBeforeYear 10000 := daysBeforeYear_mono (by omega)
      have hten := daysBeforeYear_eq 10000
      rw [daysBeforeYear] at hlast
      rw [dayNumber] at hnumber
      omega
    obtain ⟨hdate', hnumber'⟩ := fromTimestamp_date hz hlt
    obtain ⟨hhour, hminute, hsecond, htime⟩ := fromTimestamp_time (t := t) (by omega)
    have hsame : (fromTimestamp t).year.toNat = y :=
      hdate'.year_eq hdate (by omega)
    have hmonth : monthLength y (fromTimestamp t).month.toNat ≤ 31 := by
      rw [monthLength]
      split_ifs <;> decide
    refine ⟨⟨⟨by omega, hdate'.month, ⟨hdate'.day.1, hdate'.day.2.trans (hsame ▸ hmonth)⟩, hhour, hminute,
      hsecond, Nat.zero_le _, Nat.zero_le _⟩, hdate'⟩, ?_⟩
    have htzHour : (fromTimestamp t).tzHour = 0 := rfl
    have htzMinute : (fromTimestamp t).tzMinute = 0 := rfl
    rw [timestamp_eq (by omega) hdate', hnumber', htzHour, htzMinute, UInt8.toNat_zero, Nat.cast_zero, zero_mul,
      zero_mul, add_zero, zero_mul, add_zero]
    omega

/-- The date of a timestamp is exact iff no time of day is rounded up to the next midnight, and a date is read
back from its text. -/
theorem exact_iff_and_read_back (t : ℤ) (y : ℕ) (date : UTCDate) :
    (IsInYear t y → 1 ≤ y → y ≤ 9999 → (Exact t ↔ 0 ≤ t ∨ t % 86400 = 0)) ∧
      (date.InRange → ∃ date', fromStr date.display = some date' ∧ date'.timestamp = date.timestamp) :=
  ⟨exact_iff, timestamp_fromStr_display⟩

theorem isInYear_epoch : IsInYear 0 1970 := ⟨1, 1, by decide, by rw [sub_self]; rfl⟩

def landing : UTCDate := ⟨1969, 7, 20, 20, 17, 40, true, 4, 0⟩

theorem exact_epoch_and_landing_read_back :
    (Exact 0 ↔ (0 : ℤ) ≤ 0 ∨ (0 : ℤ) % 86400 = 0) ∧
      ∃ date', fromStr landing.display = some date' ∧ date'.timestamp = landing.timestamp :=
  ⟨(exact_iff_and_read_back 0 1970 landing).1 isInYear_epoch (by decide) (by decide),
    (exact_iff_and_read_back 0 1970 landing).2
      ⟨by decide, by decide, by decide, by decide, by decide, by decide, by decide, by decide⟩⟩

/-- The last second before 1970 has no date. -/
theorem not_exact_before_epoch : IsInYear (-1) 1969 ∧ ¬Exact (-1) := by
  constructor
  · refine ⟨12, 31, by decide, ?_⟩
    have hyear := daysBeforeYear_eq 1969
    rw [dayNumber_epoch, dayNumber, daysBeforeMonth_eq (by decide), if_neg (by decide), if_neg (by decide)]
    omega
  · rintro ⟨⟨hrange, -⟩, -⟩
    exact absurd hrange.second (by decide)

end UTCDate

end Bearmail.Jmap
