import Mathlib

/-!
# The calendar

Days are counted from 1970-01-01.  `civilFromDays` turns a day into a year, a month and a day
of the month (`crates/logic/wake.rs`).  It counts years from March on, in eras of 400 years:
a year of an era begins on the day `yearStart`, and the division by 365 that finds it is
right on every day of the year (`yearOf_eq`).
-/

namespace Celld.Schedule

/-- The year, month and day of a day.  All but the first division are of natural numbers. -/
def civilFromDays (z : ℤ) : ℤ × ℕ × ℕ :=
  let z := z + 719468
  let era := (if 0 ≤ z then z else z - 146096).tdiv 146097
  let doe := z - era * 146097
  let yoe := (doe - doe / 1460 + doe / 36524 - doe / 146096) / 365
  let doy := doe - (365 * yoe + yoe / 4 - yoe / 100)
  let mp := (5 * doy + 2) / 153
  let d := (doy - (153 * mp + 2) / 5 + 1).toNat
  let m := (if mp < 10 then mp + 3 else mp - 9).toNat
  (yoe + era * 400 + (if m ≤ 2 then 1 else 0), m, d)

/-- The day of a year, month and day. -/
def daysFromCivil (y : ℤ) (m d : ℕ) : ℤ :=
  let y := y - (if m ≤ 2 then 1 else 0)
  let era := (if 0 ≤ y then y else y - 399).tdiv 400
  let yoe := y - era * 400
  let mp : ℤ := if 2 < m then m - 3 else m + 9
  let doy := (153 * mp + 2) / 5 + d - 1
  era * 146097 + yoe * 365 + yoe / 4 - yoe / 100 + doy - 719468

/-! ## Years of an era -/

/-- The first day of a year of an era. -/
def yearStart (y : ℕ) : ℕ := 365 * y + y / 4 - y / 100 + y / 400

/-- The days of an era that are scaled to years of 365 days. -/
def scaled (doe : ℕ) : ℕ := doe - doe / 1460 + doe / 36524 - doe / 146096

theorem scaled_mono : Monotone scaled := by
  refine monotone_nat_of_le_succ fun n => ?_
  have small : n / 1460 ≤ n := Nat.div_le_self _ _
  have order : n / 146096 ≤ n / 36524 := Nat.div_le_div_left (by norm_num) (by norm_num)
  have both : 146096 ∣ n + 1 → 36524 ∣ n + 1 := (by norm_num : (36524 : ℕ) ∣ 146096).trans
  -- A day that ends an era ends a century as well.
  have less : (if 146096 ∣ n + 1 then 1 else 0) ≤ if 36524 ∣ n + 1 then 1 else 0 := by
    split_ifs with era century
    · exact le_rfl
    · exact absurd (both era) century
    · exact Nat.zero_le _
    · exact le_rfl
  have one : (if 1460 ∣ n + 1 then 1 else 0) ≤ 1 := by split_ifs <;> decide
  simp only [scaled, Nat.succ_div]
  omega

theorem scaled_ends : ∀ y < 400, yearStart y < yearStart (y + 1) ∧ 365 * y ≤ scaled (yearStart y) ∧
    scaled (yearStart (y + 1) - 1) < 365 * (y + 1) := by
  decide +kernel

/-- A day of a year is in that year. -/
theorem yearOf_eq {y doy : ℕ} (inEra : y < 400) (inYear : yearStart y + doy < yearStart (y + 1)) :
    scaled (yearStart y + doy) / 365 = y := by
  obtain ⟨_, _⟩ := scaled_ends y inEra
  have above := scaled_mono (Nat.le_add_right (yearStart y) doy)
  have below := scaled_mono (show yearStart y + doy ≤ yearStart (y + 1) - 1 by omega)
  omega

theorem exists_year {doe : ℕ} (inEra : doe < 146097) :
    ∃ y < 400, ∃ doy, doe = yearStart y + doy ∧ yearStart y + doy < yearStart (y + 1) := by
  have found : ∀ n, n ≤ 400 → doe < yearStart n →
      ∃ y < n, yearStart y ≤ doe ∧ doe < yearStart (y + 1) := by
    intro n
    induction n with
    | zero => exact fun _ below => absurd below (Nat.not_lt_zero _)
    | succ n ih =>
      intro _ below
      by_cases earlier : doe < yearStart n
      · obtain ⟨y, less, here⟩ := ih (by omega) earlier
        exact ⟨y, by omega, here⟩
      · exact ⟨n, lt_add_one n, not_lt.mp earlier, below⟩
  obtain ⟨y, less, _⟩ := found 400 le_rfl inEra
  exact ⟨y, less, doe - yearStart y, by omega, by omega⟩

/-- The month, counted from March, and the day of a day of a year. -/
def monthOf (doy : ℕ) : ℕ := if (5 * doy + 2) / 153 < 10 then (5 * doy + 2) / 153 + 3
    else (5 * doy + 2) / 153 - 9

def dayOf (doy : ℕ) : ℕ := doy - (153 * ((5 * doy + 2) / 153) + 2) / 5 + 1

theorem monthOf_cast (doy : ℕ) :
    (if (5 * (doy : ℤ) + 2) / 153 < 10 then (5 * (doy : ℤ) + 2) / 153 + 3
    else (5 * (doy : ℤ) + 2) / 153 - 9).toNat = monthOf doy := by
  have cast_ : (5 * (doy : ℤ) + 2) / 153 = ((5 * doy + 2) / 153 : ℕ) := by push_cast; rfl
  rw [cast_, monthOf]
  generalize (5 * doy + 2) / 153 = mp
  split_ifs <;> omega

theorem dayOf_cast (doy : ℕ) :
    ((doy : ℤ) - (153 * ((5 * (doy : ℤ) + 2) / 153) + 2) / 5 + 1).toNat = dayOf doy := by
  have cast_ : (5 * (doy : ℤ) + 2) / 153 = ((5 * doy + 2) / 153 : ℕ) := by push_cast; rfl
  have below : 153 * ((5 * doy + 2) / 153) ≤ 5 * doy + 2 := Nat.mul_div_le _ _
  rw [cast_, dayOf]
  generalize (5 * doy + 2) / 153 = mp at *
  omega

/-- **A day of a year of an era.** -/
theorem civilFromDays_eq (era : ℤ) {y doy : ℕ} (inEra : y < 400)
    (inYear : yearStart y + doy < yearStart (y + 1)) :
    civilFromDays (era * 146097 + (yearStart y + doy : ℕ) - 719468)
      = (y + era * 400 + (if monthOf doy ≤ 2 then 1 else 0), monthOf doy, dayOf doy) := by
  have year := yearOf_eq inEra inYear
  have start : yearStart y = 365 * y + y / 4 - y / 100 := by
    rw [yearStart, Nat.div_eq_of_lt inEra, Nat.add_zero]
  have small : yearStart y + doy < 146097 := by
    have ends : yearStart (y + 1) ≤ 146097 := by
      simp only [yearStart]
      omega
    omega
  generalize doe_ : yearStart y + doy = doe at *
  have era_ : (if 0 ≤ era * 146097 + (doe : ℤ) then era * 146097 + (doe : ℤ)
      else era * 146097 + (doe : ℤ) - 146096).tdiv 146097 = era := by
    split
    · rw [Int.tdiv_eq_ediv_of_nonneg (by assumption)]
      omega
    · have sign : Int.sign 146097 = 1 := rfl
      rw [Int.tdiv_eq_ediv, sign]
      split_ifs <;> omega
  have scaled_ : ((doe : ℤ) - doe / 1460 + doe / 36524 - doe / 146096) / 365 = (y : ℤ) := by
    rw [← year, scaled]
    omega
  have doy_ : (doe : ℤ) - (365 * (y : ℤ) + y / 4 - y / 100) = (doy : ℤ) := by omega
  simp only [civilFromDays, sub_add_cancel, era_, add_sub_cancel_left, scaled_, doy_]
  rw [monthOf_cast, dayOf_cast]

theorem exists_parts (z : ℤ) : ∃ (era : ℤ) (y doy : ℕ), y < 400 ∧
    yearStart y + doy < yearStart (y + 1) ∧
      z = era * 146097 + (yearStart y + doy : ℕ) - 719468 := by
  obtain ⟨y, inEra, doy, _, inYear⟩ :=
    exists_year (by omega : ((z + 719468) % 146097).toNat < 146097)
  exact ⟨(z + 719468) / 146097, y, doy, inEra, inYear, by omega⟩

/-! ## The way back, and order -/

theorem civil_ranges : ∀ doy < 366, 1 ≤ monthOf doy ∧ monthOf doy ≤ 12 ∧
    1 ≤ dayOf doy ∧ dayOf doy ≤ 31 ∧
    (153 * (if 2 < monthOf doy then (monthOf doy : ℤ) - 3 else monthOf doy + 9) + 2)
      / 5 + dayOf doy - 1
      = doy := by
  decide +kernel

theorem doy_lt {y doy : ℕ} (inYear : yearStart y + doy < yearStart (y + 1)) : doy < 366 := by
  simp only [yearStart] at inYear
  omega

/-- Every day has one date. -/
theorem daysFromCivil_civilFromDays (z : ℤ) :
    daysFromCivil (civilFromDays z).1 (civilFromDays z).2.1 (civilFromDays z).2.2 = z := by
  obtain ⟨era, y, doy, inEra, inYear, rfl⟩ := exists_parts z
  obtain ⟨_, _, _, _, back⟩ := civil_ranges doy (doy_lt inYear)
  have start : yearStart y = 365 * y + y / 4 - y / 100 := by
    rw [yearStart, Nat.div_eq_of_lt inEra, Nat.add_zero]
  have era_ : (if 0 ≤ (y : ℤ) + era * 400 then (y : ℤ) + era * 400
      else (y : ℤ) + era * 400 - 399).tdiv 400 = era := by
    split
    · rw [Int.tdiv_eq_ediv_of_nonneg (by assumption)]
      omega
    · have sign : Int.sign 400 = 1 := rfl
      rw [Int.tdiv_eq_ediv, sign]
      split_ifs <;> omega
  rw [civilFromDays_eq era inEra inYear]
  simp only [daysFromCivil, add_sub_cancel_right, era_, back]
  omega

theorem civilFromDays_ranges (z : ℤ) : (1 ≤ (civilFromDays z).2.1 ∧ (civilFromDays z).2.1 ≤ 12) ∧
    1 ≤ (civilFromDays z).2.2 ∧ (civilFromDays z).2.2 ≤ 31 := by
  obtain ⟨era, _, doy, inEra, inYear, rfl⟩ := exists_parts z
  obtain ⟨first, last, begins, ends, _⟩ := civil_ranges doy (doy_lt inYear)
  rw [civilFromDays_eq era inEra inYear]
  exact ⟨⟨first, last⟩, begins, ends⟩

/-- A date as one number. -/
def stamp (z : ℤ) : ℤ :=
    (civilFromDays z).1 * 10000 + (civilFromDays z).2.1 * 100 + (civilFromDays z).2.2

/-- The same within a year that begins in March. -/
def yearStamp (doy : ℕ) : ℕ :=
    (if monthOf doy ≤ 2 then 10000 else 0) + monthOf doy * 100 + dayOf doy

theorem stamp_eq (era : ℤ) {y doy : ℕ} (inEra : y < 400)
    (inYear : yearStart y + doy < yearStart (y + 1)) :
    stamp (era * 146097 + (yearStart y + doy : ℕ) - 719468) =
      (y + era * 400) * 10000 + yearStamp doy := by
  simp only [stamp, civilFromDays_eq era inEra inYear, yearStamp]
  split_ifs <;> push_cast <;> ring

theorem yearStamp_step : ∀ doy < 366, yearStamp doy < 10000 + yearStamp 0 ∧
    yearStamp doy < yearStamp (doy + 1) := by
  decide +kernel

/-- **Dates are ordered as their days.** -/
theorem stamp_strictMono : StrictMono stamp := by
  refine strictMono_int_of_lt_succ fun z => ?_
  obtain ⟨era, y, doy, inEra, inYear, rfl⟩ := exists_parts z
  obtain ⟨_, _⟩ := yearStamp_step doy (doy_lt inYear)
  rw [stamp_eq era inEra inYear]
  by_cases within : yearStart y + (doy + 1) < yearStart (y + 1)
  · have next : era * 146097 + (yearStart y + doy : ℕ) - 719468 + 1
        = era * 146097 + (yearStart y + (doy + 1) : ℕ) - 719468 := by omega
    rw [next, stamp_eq era inEra within]
    omega
  by_cases inEra' : y + 1 < 400
  · have next : era * 146097 + (yearStart y + doy : ℕ) - 719468 + 1
        = era * 146097 + (yearStart (y + 1) + 0 : ℕ) - 719468 := by omega
    rw [next, stamp_eq era inEra' (scaled_ends _ inEra').1]
    omega
  · have last : yearStart (y + 1) = 146097 := by rw [show y = 399 by omega]; rfl
    have next : era * 146097 + (yearStart y + doy : ℕ) - 719468 + 1
        = (era + 1) * 146097 + (yearStart 0 + 0 : ℕ) - 719468 := by
      rw [show yearStart 0 = 0 from rfl]
      omega
    rw [next, stamp_eq (era + 1) (by decide) (by decide)]
    omega

end Celld.Schedule
