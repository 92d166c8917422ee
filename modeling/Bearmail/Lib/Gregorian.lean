import Mathlib.Algebra.BigOperators.Group.List.Basic
import Mathlib.Tactic.IntervalCases

/-!
# The Gregorian calendar

Days are counted from the first of January of the year 0. Counted in years that start in March the leap day
is the last of its year, and the number of a day and the day of a number have closed forms.
-/

namespace Gregorian

def IsLeap (y : ℕ) : Prop := y % 4 = 0 ∧ (y % 100 ≠ 0 ∨ y % 400 = 0)

instance (y : ℕ) : Decidable (IsLeap y) := inferInstanceAs (Decidable (_ ∧ _))

def yearLength (y : ℕ) : ℕ := if IsLeap y then 366 else 365

def monthLength (y m : ℕ) : ℕ :=
  if m = 2 then if IsLeap y then 29 else 28
  else if m = 4 ∨ m = 6 ∨ m = 9 ∨ m = 11 then 30
  else 31

structure IsDate (y m d : ℕ) : Prop where
  month : 1 ≤ m ∧ m ≤ 12
  day : 1 ≤ d ∧ d ≤ monthLength y m

instance (y m d : ℕ) : Decidable (IsDate y m d) :=
  decidable_of_iff ((1 ≤ m ∧ m ≤ 12) ∧ 1 ≤ d ∧ d ≤ monthLength y m)
    ⟨fun h => ⟨h.1, h.2⟩, fun h => ⟨h.month, h.day⟩⟩

def daysBeforeYear : ℕ → ℕ
  | 0 => 0
  | y + 1 => daysBeforeYear y + yearLength y

def daysBeforeMonth (y : ℕ) : ℕ → ℕ
  | 0 | 1 => 0
  | m + 1 => daysBeforeMonth y m + monthLength y m

def dayNumber (y m d : ℕ) : ℕ := daysBeforeYear y + daysBeforeMonth y m + (d - 1)

theorem daysBeforeYear_eq (y : ℕ) :
    daysBeforeYear y + (y + 99) / 100 = 365 * y + (y + 3) / 4 + (y + 399) / 400 := by
  induction y with
  | zero => rfl
  | succ y ih =>
    rw [daysBeforeYear, yearLength]
    split
    · next hleap =>
      obtain ⟨hfour, hcentury⟩ := hleap
      omega
    · next hnot =>
      rw [IsLeap] at hnot
      omega

/-! ## Years from March on -/

/-- The days before a day of a month of a year from March on, from the first of March of the year 0 on. The
months are counted from 0. -/
def marchNumber (y mp d : ℕ) : ℕ := 365 * y + y / 4 + y / 400 - y / 100 + (153 * mp + 2) / 5 + (d - 1)

/-- The parts of a day of 400 years: the century, the four years in it, the year in them, and the day. -/
structure Parts (doe c q k j : ℕ) : Prop where
  century : c ≤ 3
  four : q ≤ 24
  year : k ≤ 3
  day : j ≤ 364 ∨ j = 365 ∧ k = 3 ∧ (q < 24 ∨ c = 3)
  sum : doe = 36524 * c + 1461 * q + 365 * k + j

theorem exists_parts {doe : ℕ} (h : doe < 146097) : ∃ c q k j, Parts doe c q k j := by
  obtain ⟨c, hc⟩ : ∃ c, c = min (doe / 36524) 3 := ⟨_, rfl⟩
  obtain ⟨q, hq⟩ : ∃ q, q = (doe - 36524 * c) / 1461 := ⟨_, rfl⟩
  obtain ⟨k, hk⟩ : ∃ k, k = min ((doe - 36524 * c) % 1461 / 365) 3 := ⟨_, rfl⟩
  exact ⟨c, q, k, (doe - 36524 * c) % 1461 - 365 * k, by omega, by omega, by omega, by omega, by omega⟩

namespace Parts

variable {doe c q k j : ℕ}

theorem yoe_eq (h : Parts doe c q k j) :
    (doe - doe / 1460 + doe / 36524 - doe / 146096) / 365 = 100 * c + 4 * q + k := by
  obtain ⟨hc, hq, hk, hj, hsum⟩ := h
  by_cases hlast : q = 24 ∧ k = 3 ∧ j = 365
  · obtain ⟨rfl, rfl, rfl⟩ := hlast
    obtain rfl : c = 3 := by omega
    subst hsum
    decide
  · have hfour : doe / 146096 = 0 := by omega
    have hcentury : doe / 36524 = c := by omega
    omega

theorem doy_eq (h : Parts doe c q k j) :
    doe - (365 * (100 * c + 4 * q + k) + (100 * c + 4 * q + k) / 4 - (100 * c + 4 * q + k) / 100) = j := by
  obtain ⟨hc, hq, hk, -, hsum⟩ := h
  omega

theorem day_le (h : Parts doe c q k j) : j ≤ 365 := by
  rcases h.day with hle | ⟨hle, -⟩ <;> omega

end Parts

theorem month_bounds {j mp : ℕ} (hj : j ≤ 365) (hmp : mp = (5 * j + 2) / 153) :
    mp ≤ 11 ∧ (153 * mp + 2) / 5 ≤ j ∧ j < (153 * (mp + 1) + 2) / 5 := by
  omega

variable {y m : ℕ}

theorem isDate_of_march {mp d : ℕ} (hmp : mp ≤ 11) (hd : 1 ≤ d)
    (hlength : d ≤ (153 * (mp + 1) + 2) / 5 - (153 * mp + 2) / 5)
    (hlast : mp = 11 → d ≤ 28 ∨ d = 29 ∧ IsLeap (y + 1)) :
    IsDate (if mp < 10 then y else y + 1) (if mp < 10 then mp + 3 else mp - 9) d := by
  by_cases h : mp = 11
  · subst h
    refine ⟨by decide, hd, ?_⟩
    rcases hlast rfl with hle | ⟨rfl, hleap⟩
    · refine hle.trans ?_
      simp only [monthLength]
      split_ifs <;> omega
    · simp [monthLength, hleap]
  · have hlt : mp ≤ 10 := by omega
    refine ⟨?_, hd, hlength.trans ?_⟩
    · split <;> omega
    · interval_cases mp <;> simp [monthLength]

theorem daysBeforeMonth_eq (hm : 1 ≤ m ∧ m ≤ 12) : daysBeforeMonth y m = if m ≤ 2 then 31 * (m - 1)
      else 59 + (if IsLeap y then 1 else 0) + (153 * (m - 3) + 2) / 5 := by
  obtain ⟨hone, htwelve⟩ := hm
  by_cases hleap : IsLeap y
  · simp only [hleap, if_true]
    interval_cases m <;> simp [daysBeforeMonth, monthLength, hleap]
  · simp only [hleap, if_false]
    interval_cases m <;> simp [daysBeforeMonth, monthLength, hleap]

theorem leap_days (y : ℕ) : (y + 3) / 4 + (y + 399) / 400 + (if IsLeap y then 1 else 0) + y / 100 =
      y / 4 + y / 400 + (y + 99) / 100 + 1 := by
  split
  · next hleap =>
    obtain ⟨hfour, hcentury⟩ := hleap
    omega
  · next hnot =>
    rw [IsLeap] at hnot
    omega

theorem daysBeforeYear_march (y : ℕ) :
    daysBeforeYear y + (if IsLeap y then 1 else 0) = 365 * y + y / 4 + y / 400 - y / 100 + 1 := by
  have hyear := daysBeforeYear_eq y
  have hleap := leap_days y
  generalize (y + 99) / 100 = a at *
  generalize y / 4 = b' at *
  omega

theorem dayNumber_march (d : ℕ) (hm : 3 ≤ m ∧ m ≤ 12) :
    dayNumber y m d = marchNumber y (m - 3) d + 60 := by
  have hyear := daysBeforeYear_march y
  rw [dayNumber, marchNumber, daysBeforeMonth_eq ⟨by omega, hm.2⟩, if_neg (by omega)]
  omega

theorem dayNumber_january (d : ℕ) (hm : 1 ≤ m ∧ m ≤ 2) :
    dayNumber (y + 1) m d = marchNumber y (m + 9) d + 60 := by
  have hyear := daysBeforeYear_march y
  have hmonth : daysBeforeMonth (y + 1) m = 31 * (m - 1) := by
    simp [daysBeforeMonth_eq ⟨hm.1, by omega⟩, hm.2]
  have hlength : yearLength y = (if IsLeap y then 1 else 0) + 365 := by
    rw [yearLength]
    split <;> rfl
  rw [dayNumber, marchNumber, daysBeforeYear]
  obtain rfl | rfl : m = 1 ∨ m = 2 := by omega
  · omega
  · omega

/-! ## The date of a day -/

theorem Parts.date {doe c q k j : ℕ} (h : Parts doe c q k j) (era : ℕ) :
    let mp := (5 * j + 2) / 153
    let y := 400 * era + (100 * c + 4 * q + k)
    let d := j - (153 * mp + 2) / 5 + 1
    IsDate (if mp < 10 then y else y + 1) (if mp < 10 then mp + 3 else mp - 9) d ∧
      dayNumber (if mp < 10 then y else y + 1) (if mp < 10 then mp + 3 else mp - 9) d =
        146097 * era + doe + 60 := by
  intro mp y d
  obtain ⟨hmp, hlower, hupper⟩ : mp ≤ 11 ∧ (153 * mp + 2) / 5 ≤ j ∧ j < (153 * (mp + 1) + 2) / 5 :=
    month_bounds h.day_le rfl
  refine ⟨isDate_of_march hmp (by omega) (by omega) ?_, ?_⟩
  · intro hlast
    rcases h.day with hle | ⟨rfl, rfl, hcycle⟩
    · exact .inl (by omega)
    · refine .inr ⟨by omega, ?_, ?_⟩
      · omega
      · have := h.century
        have := h.four
        omega
  · have hmarch : marchNumber y mp d = 146097 * era + doe := by
      obtain ⟨hc, hq, hk, -, hsum⟩ := h
      have hfour : y / 4 = 100 * era + 25 * c + q := by omega
      have hcentury : y / 100 = 4 * era + c := by omega
      have hcycle : y / 400 = era := by omega
      rw [marchNumber]
      omega
    by_cases hlt : mp < 10
    · simp only [if_pos hlt]
      rw [dayNumber_march d (by omega), Nat.add_sub_cancel, hmarch]
    · simp only [if_neg hlt]
      rw [dayNumber_january d (by omega), Nat.sub_add_cancel (by omega), hmarch]

theorem daysBeforeYear_mono {y' : ℕ} (h : y ≤ y') : daysBeforeYear y ≤ daysBeforeYear y' := by
  induction h with
  | refl => exact le_rfl
  | step _ ih => exact ih.trans (Nat.le_add_right ..)

theorem IsDate.before_lt {d : ℕ} (h : IsDate y m d) :
    daysBeforeMonth y m + (d - 1) < yearLength y := by
  obtain ⟨⟨hone, htwelve⟩, hd, hlength⟩ := h
  have hbefore : daysBeforeMonth y m + monthLength y m ≤ yearLength y := by
    rw [daysBeforeMonth_eq ⟨hone, htwelve⟩, monthLength, yearLength]
    by_cases hleap : IsLeap y
    · simp only [hleap, if_true]
      interval_cases m <;> decide
    · simp only [hleap, if_false]
      interval_cases m <;> decide
  omega

theorem dayNumber_epoch : dayNumber 1970 1 1 = 719528 := by
  have hyear := daysBeforeYear_eq 1970
  rw [dayNumber, daysBeforeMonth_eq (by omega)]
  simp only [Nat.reduceLeDiff, if_true]
  omega

theorem IsDate.year_eq {d y' m' d' : ℕ} (h : IsDate y m d) (h' : IsDate y' m' d')
    (hnumber : dayNumber y m d = dayNumber y' m' d') : y = y' := by
  have hlt := h.before_lt
  have hlt' := h'.before_lt
  simp only [dayNumber] at hnumber
  rcases lt_trichotomy y y' with hbefore | rfl | hafter
  · have hmono := daysBeforeYear_mono (Nat.succ_le_of_lt hbefore)
    rw [daysBeforeYear] at hmono
    omega
  · rfl
  · have hmono := daysBeforeYear_mono (Nat.succ_le_of_lt hafter)
    rw [daysBeforeYear] at hmono
    omega

theorem daysBeforeMonth_mono {m' : ℕ} (h : m ≤ m') : daysBeforeMonth y m ≤ daysBeforeMonth y m' := by
  induction h with
  | refl => exact le_rfl
  | @step m' _ ih =>
    refine ih.trans ?_
    cases m' with
    | zero => exact le_rfl
    | succ m' => exact Nat.le_add_right ..

theorem IsDate.month_le {d y' m' d' : ℕ} (h : IsDate y' m' d')
    (hnumber : dayNumber y m d ≤ dayNumber y' m' d') : y < y' ∨ y = y' ∧ m ≤ m' := by
  simp only [dayNumber] at hnumber
  rcases lt_trichotomy y y' with hlt | rfl | hgt
  · exact .inl hlt
  · refine .inr ⟨rfl, Nat.le_of_not_lt fun hafter => ?_⟩
    have hday := h.day
    cases m' with
    | zero => exact absurd h.month.1 (by decide)
    | succ m' =>
      have hmono := daysBeforeMonth_mono (y := y) hafter
      rw [daysBeforeMonth] at hmono
      · omega
      · omega
  · have hmono := daysBeforeYear_mono (Nat.succ_le_of_lt hgt)
    have hlt := h.before_lt
    rw [daysBeforeYear] at hmono
    omega

end Gregorian
