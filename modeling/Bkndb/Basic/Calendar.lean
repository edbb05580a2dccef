import Mathlib.Algebra.BigOperators.Intervals
import Mathlib.Order.Interval.Finset.Nat
import Mathlib.Tactic.IntervalCases

/-!
# The Gregorian calendar

The proleptic Gregorian calendar from the year 0 on: the lengths of its years and months, and the
number of a day, counted from the first of the year 0.

Nothing here refers to the conversion that the program uses. The lengths of years and months are
the rules of the calendar, the number of a day is a count, and the closed forms below are proved of
the count, so that a conversion can be compared with what it ought to compute and not with another
formula.
-/

namespace Calendar

/-- Every fourth year, of the centuries only every fourth. -/
def IsLeap (y : ℕ) : Prop := (y % 4 = 0 ∧ y % 100 ≠ 0) ∨ y % 400 = 0

instance (y : ℕ) : Decidable (IsLeap y) := inferInstanceAs (Decidable (_ ∨ _))

def daysInYear (y : ℕ) : ℕ := if IsLeap y then 366 else 365

/-- The days of a month, from 1 to 12. -/
def daysInMonth (y : ℕ) : ℕ → ℕ
  | 2 => if IsLeap y then 29 else 28
  | 4 | 6 | 9 | 11 => 30
  | _ => 31

/-- A date that exists. -/
def IsDate (y m d : ℕ) : Prop := 1 ≤ m ∧ m ≤ 12 ∧ 1 ≤ d ∧ d ≤ daysInMonth y m

instance (y m d : ℕ) : Decidable (IsDate y m d) := inferInstanceAs (Decidable (_ ∧ _))

/-- The days before a year. -/
def daysBeforeYear (y : ℕ) : ℕ := ∑ i ∈ Finset.range y, daysInYear i

/-- The days of a year before a month. -/
def daysBeforeMonth (y m : ℕ) : ℕ := ∑ i ∈ Finset.Ico 1 m, daysInMonth y i

/-- The days before a date. -/
def dayNumber (y m d : ℕ) : ℕ := daysBeforeYear y + daysBeforeMonth y m + (d - 1)

/-- The days from the first of 1970 to a date. -/
def daysSince1970 (y m d : ℕ) : ℤ := dayNumber y m d - dayNumber 1970 1 1

/-! ## Closed forms

A conversion between days and dates works with quotients. These are the counts above as quotients:
leap years round up, and the lengths of the months from March on repeat every five months. -/

/-- The leap years before a year are counted by rounding up. -/
theorem daysBeforeYear_eq (y : ℕ) :
    daysBeforeYear y + (y + 99) / 100 = 365 * y + (y + 3) / 4 + (y + 399) / 400 := by
  induction y with
  | zero => rfl
  | succ y ih =>
    rw [daysBeforeYear, Finset.sum_range_succ, ← daysBeforeYear, daysInYear]
    by_cases hleap : IsLeap y
    · rw [if_pos hleap]
      unfold IsLeap at hleap
      omega
    · rw [if_neg hleap]
      unfold IsLeap at hleap
      omega

/-- The days before a month by its place, counted from March as in `(153 * n + 2) / 5`. -/
theorem daysBeforeMonth_eq {y m : ℕ} (h1 : 1 ≤ m) (h12 : m ≤ 12) :
    daysBeforeMonth y m =
      if m ≤ 2 then 31 * (m - 1)
      else (153 * (m - 3) + 2) / 5 + if IsLeap y then 60 else 59 := by
  interval_cases m
  all_goals
    simp only [daysBeforeMonth, Finset.sum_Ico_eq_sum_range, Finset.sum_range_succ,
      Finset.sum_range_zero, daysInMonth, Nat.reduceSub]
    split_ifs <;> omega

theorem dayNumber_epoch : dayNumber 1970 1 1 = 719528 := by
  have hyear := daysBeforeYear_eq 1970
  rw [dayNumber, daysBeforeMonth_eq (by decide) (by decide), if_pos (by decide)]
  omega

end Calendar
