import Bkndb.Basic.RunningSum
import Mathlib.Data.Int.Order.Basic
import Mathlib.Tactic.NormNum

/-!
# Checked 64-bit integers

The integers a signed 64-bit word holds, and the conversion that refuses the others. A checked
operation computes exactly and then converts.

The machine operation that panics or wraps is never modelled by itself: the program asks for a
checked operation, or builds in a mode in which overflow is a panic, and both are the exact
operation followed by `tryFrom`.
-/

namespace Int64

/-- The integers of a signed 64-bit word. -/
abbrev Fits (z : ℤ) : Prop := RunningSum.Within (-2 ^ 63) (2 ^ 63 - 1) z

/-- The word that holds an integer, or `none` when none does. -/
def tryFrom (z : ℤ) : Option Int64 := if Fits z then some (.ofInt z) else none

/-- Exact addition, or `none` on overflow. -/
def checkedAdd (a b : Int64) : Option Int64 := tryFrom (a.toInt + b.toInt)

theorem fits_toInt (a : Int64) : Fits a.toInt := ⟨a.le_toInt, by have := a.toInt_lt; omega⟩

theorem fits_zero : Fits 0 := by decide

theorem toInt_ofInt_of_fits {z : ℤ} (h : Fits z) : (Int64.ofInt z).toInt = z :=
  Int64.toInt_ofInt_of_le (by simpa using h.1) (by have := h.2; norm_num at this ⊢; omega)

theorem tryFrom_of_fits {z : ℤ} (h : Fits z) : tryFrom z = some (.ofInt z) := if_pos h

theorem tryFrom_of_not_fits {z : ℤ} (h : ¬ Fits z) : tryFrom z = none := if_neg h

@[simp] theorem tryFrom_toInt (a : Int64) : tryFrom a.toInt = some a := by
  rw [tryFrom_of_fits a.fits_toInt, Int64.ofInt_toInt]

theorem tryFrom_eq_some {z : ℤ} {a : Int64} : tryFrom z = some a ↔ a.toInt = z := by
  constructor
  · intro h
    rw [tryFrom] at h
    split at h
    case isTrue hfits => rw [← Option.some.inj h, toInt_ofInt_of_fits hfits]
    case isFalse => cases h
  · rintro rfl
    exact tryFrom_toInt a

theorem tryFrom_eq_none {z : ℤ} : tryFrom z = none ↔ ¬ Fits z := by
  rw [tryFrom]
  split <;> simp_all

end Int64
