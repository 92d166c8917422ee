import Bearmail.Lib.Gregorian

/-!
# The month of the quota

`utc_year_month` of `edge/src/meter.rs`: a year is counted from March on, 400 years at a time.
-/

namespace Bearmail.Edge

open Gregorian

def utcYearMonth (unixSecs : ℕ) : ℕ × ℕ :=
  let z : ℤ := (unixSecs / 86400 : ℕ) + 719468
  let era := (if 0 ≤ z then z else z - 146096).tdiv 146097
  let doe := (z - era * 146097).toNat
  let yoe := (doe - doe / 1460 + doe / 36524 - doe / 146096) / 365
  let y := (yoe : ℤ) + era * 400
  let doy := doe - (365 * yoe + yoe / 4 - yoe / 100)
  let mp := (5 * doy + 2) / 153
  let month := if mp < 10 then mp + 3 else mp - 9
  let year := if month ≤ 2 then y + 1 else y
  ((year % 65536).toNat, month % 256)

def IsMonth (t y m : ℕ) : Prop := ∃ d, IsDate y m d ∧ dayNumber y m d = dayNumber 1970 1 1 + t / 86400

variable {t t' y y' m m' : ℕ}

theorem exists_isMonth (t : ℕ) : ∃ y m, IsMonth t y m ∧ utcYearMonth t = (y % 65536, m) := by
  obtain ⟨z, hz⟩ : ∃ z, z = t / 86400 + 719468 := ⟨_, rfl⟩
  have hz' : ((t / 86400 : ℕ) : ℤ) + 719468 = z := by omega
  obtain ⟨c, q, k, j, hparts⟩ := exists_parts (Nat.mod_lt z (show 0 < 146097 by decide))
  obtain ⟨hdate, hnumber⟩ := hparts.date (z / 146097)
  have hera : (if (0 : ℤ) ≤ z then (z : ℤ) else z - 146096).tdiv 146097 = (z / 146097 : ℕ) := by
    rfl
  have hdoe : ((z : ℤ) - (z / 146097 : ℕ) * 146097).toNat = z % 146097 := by omega
  obtain ⟨hmp, -⟩ := month_bounds hparts.day_le rfl
  refine ⟨_, _, ⟨_, hdate, ?_⟩, ?_⟩
  · rw [dayNumber_epoch]
    omega
  · simp only [utcYearMonth, hz', hera, hdoe, hparts.yoe_eq, hparts.doy_eq]
    generalize (5 * j + 2) / 153 = mp at *
    refine Prod.ext ?_ (Nat.mod_eq_of_lt (by split <;> omega))
    by_cases hlt : mp < 10
    · simp only [if_pos hlt, if_neg (show ¬mp + 3 ≤ 2 by omega)]
      omega
    · simp only [if_neg hlt, if_pos (show mp - 9 ≤ 2 by omega)]
      omega

theorem IsMonth.le (h : IsMonth t y m) (h' : IsMonth t' y' m') (hle : t ≤ t') : y < y' ∨ y = y' ∧ m ≤ m' := by
  obtain ⟨d, -, hnumber⟩ := h
  obtain ⟨d', hdate', hnumber'⟩ := h'
  exact hdate'.month_le (show dayNumber y m d ≤ _ by omega)

theorem utcYearMonth_eq (h : IsMonth t y m) (hy : y < 65536) : utcYearMonth t = (y, m) := by
  obtain ⟨y', m', h', heq⟩ := exists_isMonth t
  have hle := h.le h' le_rfl
  have hge := h'.le h le_rfl
  obtain ⟨rfl, rfl⟩ : y = y' ∧ m = m' := by omega
  rw [heq, Nat.mod_eq_of_lt hy]

theorem utcYearMonth_exact (h : IsMonth t y m) (hy : y < 65536) (h' : IsMonth t' y' m') (hy' : y' < 65536) :
    utcYearMonth t = (y, m) ∧
      (t ≤ t' → (utcYearMonth t).1 < (utcYearMonth t').1 ∨
        (utcYearMonth t).1 = (utcYearMonth t').1 ∧ (utcYearMonth t).2 ≤ (utcYearMonth t').2) ∧
      (utcYearMonth t = utcYearMonth t' ↔ y = y' ∧ m = m') := by
  rw [utcYearMonth_eq h hy, utcYearMonth_eq h' hy']
  exact ⟨rfl, h.le h', Prod.mk.injEq .. ▸ Iff.rfl⟩

/-- The first of January and the first of February of 1970. -/
theorem utcYearMonth_exact_february :
    utcYearMonth 0 = (1970, 1) ∧
      (0 ≤ 2678400 → (utcYearMonth 0).1 < (utcYearMonth 2678400).1 ∨
        (utcYearMonth 0).1 = (utcYearMonth 2678400).1 ∧ (utcYearMonth 0).2 ≤ (utcYearMonth 2678400).2) ∧
      (utcYearMonth 0 = utcYearMonth 2678400 ↔ 1970 = 1970 ∧ 1 = 2) :=
  utcYearMonth_exact ⟨1, by decide, by simp⟩ (by decide)
    ⟨1, by decide, by simp [dayNumber, daysBeforeMonth, monthLength]⟩ (by decide)

end Bearmail.Edge
