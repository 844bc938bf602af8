import Mathlib.Tactic.IntervalCases
import Spanbarn.Schemes.Grid

/-! Months of the Gregorian calendar, in days since 1970-01-01.

    Months are numbered through, `12 * year + (month - 1)`. Counted from 1 March of the year 0 the leap
    day is the last day of its year, so the days before a month are those of the whole years and

        month      Mar Apr May Jun Jul Aug Sep Oct Nov Dec Jan Feb
        days before  0  31  61  92 122 153 184 214 245 275 306 337   =  (153 * m + 2) / 5

    Going back, a day count is taken apart into 400-year eras of 146097 days, centuries, 4-year cycles
    and years; the fourth century of an era and the fourth year of a cycle are one day longer. -/

namespace Spanbarn.Schemes

/-- Days from 0000-03-01 to 1970-01-01. -/
def epochShift : ℤ := 719468

/-- Days before the March of a year that starts in March. -/
def daysBeforeYear (y : ℤ) : ℤ := 365 * y + y / 4 - y / 100 + y / 400

/-- The first day of a month. -/
def monthStart (m : ℤ) : ℤ :=
  daysBeforeYear ((m - 2) / 12) + (153 * ((m - 2) % 12) + 2) / 5 - epochShift

/-- A day as its year that starts in March, and the day in that year. -/
def yearAndDay (d : ℤ) : ℤ × ℤ :=
  let n := d + epochShift
  let century := min (n % 146097 / 36524) 3
  let inCentury := n % 146097 - 36524 * century
  let year := min (inCentury % 1461 / 365) 3
  (400 * (n / 146097) + 100 * century + 4 * (inCentury / 1461) + year,
    inCentury % 1461 - 365 * year)

/-- The month of a day. -/
def monthOf (d : ℤ) : ℤ := 12 * (yearAndDay d).1 + (5 * (yearAndDay d).2 + 2) / 153 + 2

/-- The days before a year, by eras, centuries, cycles and years. -/
theorem daysBeforeYear_eq {era century cycle year : ℤ} (hc : 0 ≤ century ∧ century ≤ 3)
    (hq : 0 ≤ cycle ∧ cycle ≤ 24) (hy : 0 ≤ year ∧ year ≤ 3) :
    daysBeforeYear (400 * era + 100 * century + 4 * cycle + year) =
      146097 * era + 36524 * century + 1461 * cycle + 365 * year := by
  have h4 : (400 * era + 100 * century + 4 * cycle + year) / 4 =
      100 * era + 25 * century + cycle := by omega
  have h100 : (400 * era + 100 * century + 4 * cycle + year) / 100 = 4 * era + century := by omega
  have h400 : (400 * era + 100 * century + 4 * cycle + year) / 400 = era := by omega
  rw [daysBeforeYear, h4, h100, h400]
  omega

/-- A digit that stops at 3: the last of four units may be longer than the others. -/
theorem min_div_three {n w : ℤ} (hw : 0 < w) (hn : 0 ≤ n) :
    0 ≤ min (n / w) 3 ∧ min (n / w) 3 ≤ 3 ∧ 0 ≤ n - w * min (n / w) 3 ∧
      (min (n / w) 3 < 3 → n - w * min (n / w) 3 < w) := by
  have h₀ := Int.ediv_nonneg hn hw.le
  have h₁ := Int.mul_ediv_self_le (x := n) (ne_of_gt hw)
  have h₂ := Int.lt_mul_ediv_self_add (x := n) hw
  rcases le_total (n / w) 3 with h | h
  · rw [min_eq_left h]
    omega
  · rw [min_eq_right h]
    have h₃ := Int.mul_le_mul_of_nonneg_left h hw.le
    omega

/-- The year found holds the day: no day is left over but the leap day of a leap year. -/
theorem yearAndDay_spec (d : ℤ) :
    0 ≤ (yearAndDay d).2 ∧
      d + epochShift = daysBeforeYear (yearAndDay d).1 + (yearAndDay d).2 ∧
      d + epochShift < daysBeforeYear ((yearAndDay d).1 + 1) := by
  simp only [yearAndDay]
  generalize d + epochShift = n
  obtain ⟨hc₀, hc₃, hc, hcw⟩ := min_div_three (w := 36524) (by decide)
    (Int.emod_nonneg n (b := 146097) (by decide))
  generalize min (n % 146097 / 36524) 3 = c at *
  have hq₀ : 0 ≤ (n % 146097 - 36524 * c) / 1461 := by omega
  have hq : (n % 146097 - 36524 * c) / 1461 ≤ 24 := by omega
  obtain ⟨hy₀, hy₃, hy, hyw⟩ := min_div_three (w := 365) (by decide)
    (Int.emod_nonneg (n % 146097 - 36524 * c) (b := 1461) (by decide))
  generalize min ((n % 146097 - 36524 * c) % 1461 / 365) 3 = y at *
  rw [daysBeforeYear_eq ⟨hc₀, hc₃⟩ ⟨hq₀, hq⟩ ⟨hy₀, hy₃⟩]
  refine ⟨hy, by omega, ?_⟩
  -- the year after: in the same cycle, or the first of the next cycle, century or era
  generalize hq' : (n % 146097 - 36524 * c) / 1461 = q at *
  rcases lt_or_eq_of_le hy₃ with hlt | rfl
  · rw [add_assoc, daysBeforeYear_eq ⟨hc₀, hc₃⟩ ⟨hq₀, hq⟩ ⟨by omega, by omega⟩]
    have := hyw hlt
    omega
  rcases lt_or_eq_of_le hq with hlt | rfl
  · have hnext : 400 * (n / 146097) + 100 * c + 4 * q + 3 + 1 =
        400 * (n / 146097) + 100 * c + 4 * (q + 1) + 0 := by omega
    rw [hnext, daysBeforeYear_eq ⟨hc₀, hc₃⟩ ⟨by omega, by omega⟩ ⟨by omega, by omega⟩]
    omega
  rcases lt_or_eq_of_le hc₃ with hlt | rfl
  · have hnext : 400 * (n / 146097) + 100 * c + 4 * 24 + 3 + 1 =
        400 * (n / 146097) + 100 * (c + 1) + 4 * 0 + 0 := by omega
    rw [hnext, daysBeforeYear_eq ⟨by omega, by omega⟩ ⟨by omega, by omega⟩ ⟨by omega, by omega⟩]
    have := hcw hlt
    omega
  · have hnext : 400 * (n / 146097) + 100 * 3 + 4 * 24 + 3 + 1 =
        400 * (n / 146097 + 1) + 100 * 0 + 4 * 0 + 0 := by omega
    rw [hnext, daysBeforeYear_eq ⟨by omega, by omega⟩ ⟨by omega, by omega⟩ ⟨by omega, by omega⟩]
    omega

/-- The Gregorian rule for leap years. -/
def leapYear (y : ℤ) : Prop := y % 4 = 0 ∧ (y % 100 ≠ 0 ∨ y % 400 = 0)

instance (y : ℤ) : Decidable (leapYear y) := by unfold leapYear; infer_instance

/-- The days of a month. -/
def monthLength (m : ℤ) : ℤ :=
  if m % 12 = 1 then if leapYear (m / 12) then 29 else 28
  else if m % 12 = 3 ∨ m % 12 = 5 ∨ m % 12 = 8 ∨ m % 12 = 10 then 30
  else 31

/-- The year that starts in March ends with the February of the year after. -/
theorem daysBeforeYear_february (y : ℤ) :
    daysBeforeYear (y + 1) = daysBeforeYear y + 337 + if leapYear (y + 1) then 29 else 28 := by
  by_cases hleap : leapYear (y + 1)
  · rw [if_pos hleap]
    simp only [leapYear, daysBeforeYear] at *
    omega
  · rw [if_neg hleap]
    simp only [leapYear, daysBeforeYear] at *
    omega

theorem daysBeforeYear_succ (y : ℤ) :
    daysBeforeYear y + 365 ≤ daysBeforeYear (y + 1) ∧
      daysBeforeYear (y + 1) ≤ daysBeforeYear y + 366 := by
  rw [daysBeforeYear_february]
  split
  · omega
  · omega

/-- The months lie end to end, with their lengths in the calendar. -/
theorem monthStart_succ (m : ℤ) : monthStart (m + 1) = monthStart m + monthLength m := by
  unfold monthStart monthLength
  by_cases hm : m % 12 = 1
  · have hy : (m - 2) / 12 + 1 = m / 12 := by omega
    have hy' : (m + 1 - 2) / 12 = (m - 2) / 12 + 1 := by omega
    have hr : (m - 2) % 12 = 11 := by omega
    have hr' : (m + 1 - 2) % 12 = 0 := by omega
    rw [if_pos hm, hy', daysBeforeYear_february, hr, hr', hy]
    omega
  · have hy : (m + 1 - 2) / 12 = (m - 2) / 12 := by omega
    have hr : (m + 1 - 2) % 12 = (m - 2) % 12 + 1 := by omega
    have hm' : m % 12 = ((m - 2) % 12 + 2) % 12 := by omega
    have hmin : 0 ≤ (m - 2) % 12 := by omega
    have hmax : (m - 2) % 12 < 11 := by omega
    rw [if_neg hm, hy, hr, hm']
    generalize (m - 2) % 12 = r at hmin hmax
    interval_cases r <;> simp <;> omega

theorem monthLength_pos (m : ℤ) : 0 < monthLength m := by
  simp only [monthLength]
  split
  · split
    · decide
    · decide
  · split
    · decide
    · decide

theorem monthStart_lt_succ (m : ℤ) : monthStart m < monthStart (m + 1) := by
  rw [monthStart_succ]
  exact Int.lt_add_of_pos_right _ (monthLength_pos m)

theorem monthStart_strictMono : StrictMono monthStart :=
  strictMono_int_of_lt_succ monthStart_lt_succ

theorem monthOf_spec (d : ℤ) : monthStart (monthOf d) ≤ d ∧ d < monthStart (monthOf d + 1) := by
  obtain ⟨hnonneg, hday, hlt⟩ := yearAndDay_spec d
  have hlen := daysBeforeYear_succ (yearAndDay d).1
  simp only [monthOf, monthStart] at *
  generalize (yearAndDay d).1 = y at *
  generalize (yearAndDay d).2 = r at *
  have hy : (12 * y + (5 * r + 2) / 153 + 2 - 2) / 12 = y := by omega
  have hm : (12 * y + (5 * r + 2) / 153 + 2 - 2) % 12 = (5 * r + 2) / 153 := by omega
  rw [hy, hm]
  refine ⟨by omega, ?_⟩
  by_cases hlast : (5 * r + 2) / 153 = 11
  · have hy' : (12 * y + (5 * r + 2) / 153 + 2 + 1 - 2) / 12 = y + 1 := by omega
    have hm' : (12 * y + (5 * r + 2) / 153 + 2 + 1 - 2) % 12 = 0 := by omega
    rw [hy', hm']
    omega
  · have hy' : (12 * y + (5 * r + 2) / 153 + 2 + 1 - 2) / 12 = y := by omega
    have hm' : (12 * y + (5 * r + 2) / 153 + 2 + 1 - 2) % 12 = (5 * r + 2) / 153 + 1 := by omega
    rw [hy', hm']
    omega

/-- The months, in days. -/
def months : Grid where
  tick := monthStart
  idx := monthOf
  strictMono := monthStart_strictMono
  tick_idx_le d := (monthOf_spec d).1
  lt_tick_idx d := (monthOf_spec d).2

example : monthStart (12 * 1970) = 0 := by decide

end Spanbarn.Schemes
