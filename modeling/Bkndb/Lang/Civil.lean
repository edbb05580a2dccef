import Bkndb.Basic.Tiling
import Bkndb.Lang.Time

/-!
# Dates and days

The day count of `lang/time.rs` over all years, negative ones included. It agrees with the lengths
of the months: the first of a month is as many days after the first of the month before as that
month has, so the months tile the days (`months`) and the count is a strictly increasing bijection
between the dates that exist and the integers.

## The proof

The algorithm counts in eras of four hundred years that begin in March. `daysFromCivil_closed`
replaces the eras by quotients, and then two differences are enough: a month ends where the next
begins (`daysFromCivil_month`), and December where the next year does (`daysFromCivil_year`). The
rest is a statement about tilings of the integers by blocks of positive length, with the months of
all years as the blocks.
-/

namespace Timestamp

/-- A date that exists. -/
structure CivilDate where
  year : ℤ
  month : ℤ
  day : ℤ
  month_pos : 1 ≤ month
  month_le : month ≤ 12
  day_pos : 1 ≤ day
  day_le : day ≤ daysInMonth year month

theorem daysInMonth_pos (y m : ℤ) : 0 < daysInMonth y m := by
  unfold daysInMonth
  split_ifs <;> decide

namespace CivilDate

/-- The day count. -/
def days (a : CivilDate) : ℤ := daysFromCivil a.year a.month a.day

/-- The next calendar date: the next day of the month, or the first of the next month or year. -/
def next (a : CivilDate) : CivilDate :=
  if h : a.day < daysInMonth a.year a.month then
    ⟨a.year, a.month, a.day + 1, a.month_pos, a.month_le, by have := a.day_pos; omega, by omega⟩
  else if hm : a.month < 12 then
    ⟨a.year, a.month + 1, 1, by have := a.month_pos; omega, by omega, le_rfl, daysInMonth_pos ..⟩
  else ⟨a.year + 1, 1, 1, le_rfl, by decide, le_rfl, daysInMonth_pos ..⟩

/-- One date comes before another: by year, then month, then day. -/
def Before (a b : CivilDate) : Prop :=
  a.year < b.year ∨ (a.year = b.year ∧
    (a.month < b.month ∨ (a.month = b.month ∧ a.day < b.day)))

end CivilDate

/-! ## The closed form -/

theorem era_floor (y : ℤ) : (if 0 ≤ y then y else y - 399).tdiv 400 = y / 400 := by
  by_cases hy : 0 ≤ y
  · rw [if_pos hy, Int.tdiv_eq_ediv_of_nonneg hy]
  · have hneg : y - 399 = -(399 - y) := by ring
    rw [if_neg hy, hneg, Int.neg_tdiv, Int.tdiv_eq_ediv_of_nonneg (by omega)]
    omega

/-- The day count without eras. -/
theorem daysFromCivil_closed {m : ℤ} (h1 : 1 ≤ m) (h12 : m ≤ 12) (y d : ℤ) :
    daysFromCivil y m d =
      let y := if m ≤ 2 then y - 1 else y
      365 * y + y / 4 - y / 100 + y / 400 + (153 * ((m + 9) % 12) + 2) / 5 + d - 719469 := by
  rw [daysFromCivil]
  generalize (if m ≤ 2 then y - 1 else y) = y'
  simp only [era_floor]
  rw [Int.tmod_eq_emod_of_nonneg (by omega), Int.tdiv_eq_ediv_of_nonneg (by omega),
    Int.tdiv_eq_ediv_of_nonneg (by omega), Int.tdiv_eq_ediv_of_nonneg (by omega)]
  omega

theorem tmod_eq_zero_iff (y : ℤ) {k : ℤ} : y.tmod k = 0 ↔ y % k = 0 := by
  rw [← Int.dvd_iff_tmod_eq_zero, Int.dvd_iff_emod_eq_zero]

theorem daysInMonth_february (y : ℤ) : daysInMonth y 2 =
    if (y % 4 = 0 ∧ y % 100 ≠ 0) ∨ y % 400 = 0 then 29 else 28 := by
  rw [daysInMonth, if_neg (by decide), if_neg (by decide)]
  simp only [tmod_eq_zero_iff, ne_eq]

theorem daysFromCivil_day (y m d : ℤ) :
    daysFromCivil y m d = daysFromCivil y m 1 + (d - 1) := by
  simp only [daysFromCivil]
  omega

/-- **A month of the year** is as long as it is to the first of the next. -/
theorem daysFromCivil_month {m : ℤ} (h1 : 1 ≤ m) (h12 : m < 12) (y : ℤ) :
    daysFromCivil y (m + 1) 1 = daysFromCivil y m 1 + daysInMonth y m := by
  rw [daysFromCivil_closed (by omega) (by omega), daysFromCivil_closed h1 h12.le]
  interval_cases m
  case «2» =>
    rw [daysInMonth_february]
    simp only [Int.reduceLE, Int.reduceAdd, Int.reduceMod, Int.reduceMul, Int.reduceDiv, if_true,
      if_false]
    split_ifs <;> omega
  all_goals
    simp only [daysInMonth]
    norm_num
    try omega

/-- **A year** ends with December. -/
theorem daysFromCivil_year (y : ℤ) :
    daysFromCivil (y + 1) 1 1 = daysFromCivil y 12 1 + daysInMonth y 12 := by
  rw [daysFromCivil_closed (by decide) (by decide), daysFromCivil_closed (by decide) (by decide)]
  simp [daysInMonth]
  omega

/-! ## Months

Months are numbered through all years, so that the next month of December needs no case of its own. -/

/-- The months of all years, in order: month `m` of year `y` has the number `12 * y + m - 1`. -/
def months : Tiling where
  start n := daysFromCivil (n / 12) (n % 12 + 1) 1
  length n := daysInMonth (n / 12) (n % 12 + 1)
  length_pos n := daysInMonth_pos _ _
  start_succ n := by
    by_cases hlast : n % 12 = 11
    · have hyear : (n + 1) / 12 = n / 12 + 1 := by omega
      have hmonth : (n + 1) % 12 + 1 = 1 := by omega
      rw [hyear, hmonth, hlast]
      exact daysFromCivil_year (n / 12)
    · have hyear : (n + 1) / 12 = n / 12 := by omega
      have hmonth : (n + 1) % 12 + 1 = n % 12 + 1 + 1 := by omega
      rw [hyear, hmonth]
      exact daysFromCivil_month (by omega) (by omega) (n / 12)

namespace CivilDate

/-- The number of a date's month. -/
def monthNumber (a : CivilDate) : ℤ := 12 * a.year + (a.month - 1)

theorem monthNumber_div (a : CivilDate) : a.monthNumber / 12 = a.year := by
  have := a.month_pos
  have := a.month_le
  rw [monthNumber]
  omega

theorem monthNumber_mod (a : CivilDate) : a.monthNumber % 12 + 1 = a.month := by
  have := a.month_pos
  have := a.month_le
  rw [monthNumber]
  omega

theorem isPlace (a : CivilDate) : months.IsPlace a.monthNumber a.day := by
  refine ⟨a.day_pos, ?_⟩
  change a.day ≤ daysInMonth (a.monthNumber / 12) (a.monthNumber % 12 + 1)
  rw [monthNumber_div, monthNumber_mod]
  exact a.day_le

theorem days_eq_number (a : CivilDate) : a.days = months.number a.monthNumber a.day := by
  change _ = daysFromCivil (a.monthNumber / 12) (a.monthNumber % 12 + 1) 1 + (a.day - 1)
  rw [monthNumber_div, monthNumber_mod, ← daysFromCivil_day]
  rfl

theorem before_iff (a b : CivilDate) :
    a.Before b ↔ Tiling.Before a.monthNumber a.day b.monthNumber b.day := by
  have := a.month_pos
  have := a.month_le
  have := b.month_pos
  have := b.month_le
  unfold Before Tiling.Before monthNumber
  omega

theorem days_next (a : CivilDate) : a.next.days = a.days + 1 := by
  have hday := daysFromCivil_day a.year a.month a.day
  have hle := a.day_le
  have hpos := a.month_pos
  rw [next]
  split_ifs with hlt hm
  · simp only [days]
    rw [daysFromCivil_day, hday]
    omega
  · simp only [days]
    rw [daysFromCivil_month hpos hm, hday]
    omega
  · have hdec : a.month = 12 := by
      have := a.month_le
      omega
    simp only [days]
    rw [daysFromCivil_year, hday, hdec]
    rw [hdec] at hlt hle
    omega

theorem days_injective : Function.Injective days := by
  intro a b h
  rw [days_eq_number, days_eq_number] at h
  obtain ⟨hmonth, hday⟩ := Tiling.number_inj a.isPlace b.isPlace h
  have hyear : a.year = b.year := by rw [← a.monthNumber_div, hmonth, b.monthNumber_div]
  have hmonth : a.month = b.month := by rw [← a.monthNumber_mod, hmonth, b.monthNumber_mod]
  cases a
  cases b
  simp_all

theorem days_surjective : Function.Surjective days := by
  intro z
  obtain ⟨n, d, hplace, rfl⟩ := Tiling.exists_number (t := months) z
  refine ⟨⟨n / 12, n % 12 + 1, d, by omega, by omega, hplace.1, hplace.2⟩, ?_⟩
  exact daysFromCivil_day (n / 12) (n % 12 + 1) d

/-- **Calendar arithmetic.** The epoch is day zero, the next date is the next day, and the count is
a strictly increasing bijection between the dates that exist and the integers. -/
theorem days_calendar :
    daysFromCivil 1970 1 1 = 0 ∧ (∀ a : CivilDate, a.next.days = a.days + 1) ∧
      (∀ a b : CivilDate, a.days < b.days ↔ a.Before b) ∧ Function.Bijective days := by
  refine ⟨by decide, days_next, fun a b ↦ ?_, days_injective, days_surjective⟩
  rw [days_eq_number, days_eq_number, before_iff]
  exact Tiling.number_lt_iff a.isPlace b.isPlace

end CivilDate

end Timestamp
