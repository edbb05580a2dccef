import Mathlib.Data.Int.ConditionallyCompleteOrder
import Mathlib.Order.SuccPred.IntervalSucc
import Mathlib.Tactic.Linarith

/-!
# Tilings of the integers

Blocks of positive lengths, one after another in both directions without end: the block `n` begins
at `start n`, where the block before it ends. Numbering the places of all blocks in order is then a
strictly increasing bijection from pairs of a block and a place in it to the integers.

Years of days are such blocks, and the days of all years numbered in order are such places. No
formula for the starts is asked for, and none is used: a block has a start, a positive length, and
a successor.
-/

/-- Blocks that follow one another. -/
structure Tiling where
  start : ℤ → ℤ
  length : ℤ → ℤ
  length_pos : ∀ n, 0 < length n
  start_succ : ∀ n, start (n + 1) = start n + length n

namespace Tiling

variable (t : Tiling)

/-- A place of a block, counted from one. -/
def IsPlace (n d : ℤ) : Prop := 1 ≤ d ∧ d ≤ t.length n

/-- The number of a place. -/
def number (n d : ℤ) : ℤ := t.start n + (d - 1)

/-- One place comes before another. -/
def Before (n d n' d' : ℤ) : Prop := n < n' ∨ (n = n' ∧ d < d')

variable {t} {n d n' d' : ℤ}

theorem start_strictMono : StrictMono t.start := by
  refine strictMono_int_of_lt_succ fun n ↦ ?_
  rw [t.start_succ]
  exact lt_add_of_pos_right _ (t.length_pos n)

/-- A place lies before the next block. -/
theorem number_lt_start (h : t.IsPlace n d) : t.number n d < t.start (n + 1) := by
  have := h.2
  rw [number, t.start_succ]
  omega

theorem start_le_number (h : t.IsPlace n d) : t.start n ≤ t.number n d := by
  have := h.1
  rw [number]
  omega

/-- **Numbers are strictly increasing.** -/
theorem number_lt (h : t.IsPlace n d) (h' : t.IsPlace n' d') (hlt : Before n d n' d') :
    t.number n d < t.number n' d' := by
  rcases hlt with hlt | ⟨rfl, hlt⟩
  · calc t.number n d < t.start (n + 1) := number_lt_start h
      _ ≤ t.start n' := start_strictMono.monotone hlt
      _ ≤ t.number n' d' := start_le_number h'
  · rw [number, number]
    omega

theorem number_lt_iff (h : t.IsPlace n d) (h' : t.IsPlace n' d') :
    t.number n d < t.number n' d' ↔ Before n d n' d' := by
  refine ⟨fun hlt ↦ ?_, number_lt h h'⟩
  rcases lt_trichotomy n n' with hn | rfl | hn
  · exact .inl hn
  · refine .inr ⟨rfl, ?_⟩
    rw [number, number] at hlt
    omega
  · exact absurd (number_lt h' h (.inl hn)) (lt_asymm hlt)

/-- **A number is that of one place.** -/
theorem number_inj (h : t.IsPlace n d) (h' : t.IsPlace n' d') (heq : t.number n d = t.number n' d') :
    n = n' ∧ d = d' := by
  have hnot := (number_lt_iff h h').not.mp (not_lt.mpr heq.ge)
  have hnot' := (number_lt_iff h' h).not.mp (not_lt.mpr heq.le)
  unfold Before at hnot hnot'
  omega

/-- **Every integer is the number of a place.** -/
theorem exists_number (z : ℤ) : ∃ n d, t.IsPlace n d ∧ t.number n d = z := by
  -- up and down from the first place of the block `0`
  have hup : ∀ z, (∃ n d, t.IsPlace n d ∧ t.number n d = z) →
      ∃ n d, t.IsPlace n d ∧ t.number n d = z + 1 := by
    rintro z ⟨n, d, hplace, rfl⟩
    have h1 := hplace.1
    by_cases hlast : d = t.length n
    · refine ⟨n + 1, 1, ⟨le_rfl, t.length_pos (n + 1)⟩, ?_⟩
      rw [number, number, t.start_succ]
      omega
    · have := hplace.2
      exact ⟨n, d + 1, ⟨by omega, by omega⟩, by rw [number, number]; omega⟩
  have hdown : ∀ z, (∃ n d, t.IsPlace n d ∧ t.number n d = z) →
      ∃ n d, t.IsPlace n d ∧ t.number n d = z - 1 := by
    rintro z ⟨n, d, hplace, rfl⟩
    obtain ⟨h1, h2⟩ := hplace
    by_cases hfirst : d = 1
    · refine ⟨n - 1, t.length (n - 1), ⟨t.length_pos (n - 1), le_rfl⟩, ?_⟩
      have hstart := t.start_succ (n - 1)
      rw [sub_add_cancel] at hstart
      rw [number, number, hstart]
      omega
    · exact ⟨n, d - 1, ⟨by omega, by omega⟩, by rw [number, number]; omega⟩
  have hzero : ∃ n d, t.IsPlace n d ∧ t.number n d = t.start 0 :=
    ⟨0, 1, ⟨le_rfl, t.length_pos 0⟩, by rw [number]; omega⟩
  have hall : ∀ k : ℤ, ∃ n d, t.IsPlace n d ∧ t.number n d = t.start 0 + k := by
    intro k
    induction k with
    | zero => simpa using hzero
    | succ k ih =>
      have := hup _ ih
      rwa [add_assoc] at this
    | pred k ih =>
      have := hdown _ ih
      rwa [add_sub_assoc] at this
  obtain ⟨n, d, hplace, hnumber⟩ := hall (z - t.start 0)
  exact ⟨n, d, hplace, by omega⟩

end Tiling
