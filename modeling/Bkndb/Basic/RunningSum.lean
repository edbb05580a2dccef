import Mathlib.Algebra.BigOperators.Group.List.Basic
import Mathlib.Algebra.Order.BigOperators.Group.List
import Mathlib.Algebra.Order.Group.Defs

/-!
# Running sums within bounds

Terms are added one after another, from a starting value; the sums met on the way stay within an
interval, or one of them leaves it. Which of the two happens depends on the order of the terms, and
it does so exactly when the final sum alone would have fitted: every order stays inside iff the
positive terms together do and the negative terms together do.

The terms and the bounds are of any linearly ordered group; integers within the bounds of a machine
word, where leaving the interval is an overflow, are one instance. The proof takes the order that
adds all terms of one sign first: it goes as far out on that side as any order can.
-/

namespace RunningSum

variable {α : Type*}

section Basic

variable [AddMonoid α]

/-- Every sum met while adding the terms to `a` satisfies `P`. -/
def Stays (P : α → Prop) : α → List α → Prop
  | _, [] => True
  | a, x :: xs => P (a + x) ∧ Stays P (a + x) xs

instance (P : α → Prop) [DecidablePred P] : (a : α) → (xs : List α) → Decidable (Stays P a xs)
  | _, [] => isTrue trivial
  | a, x :: xs =>
    have := instDecidableStaysOfDecidablePred P (a + x) xs
    inferInstanceAs (Decidable (_ ∧ _))

variable {P : α → Prop}

@[simp] theorem stays_nil (a : α) : Stays P a [] := trivial

@[simp] theorem stays_cons {a x : α} {xs : List α} :
    Stays P a (x :: xs) ↔ P (a + x) ∧ Stays P (a + x) xs := Iff.rfl

theorem stays_append {a : α} {xs ys : List α} :
    Stays P a (xs ++ ys) ↔ Stays P a xs ∧ Stays P (a + xs.sum) ys := by
  induction xs generalizing a with
  | nil => simp
  | cons x xs ih => rw [List.cons_append, stays_cons, stays_cons, ih, and_assoc, List.sum_cons,
      add_assoc]

theorem Stays.sum {a : α} {xs : List α} (h : Stays P a xs) (ha : P a) : P (a + xs.sum) := by
  induction xs generalizing a with
  | nil => simpa using ha
  | cons x xs ih =>
    rw [List.sum_cons, ← add_assoc]
    exact ih h.2 h.1

end Basic

section Order

variable [AddCommGroup α] [LinearOrder α] [IsOrderedAddMonoid α]

/-- The positive terms together. -/
def positives (xs : List α) : α := (xs.map (max · 0)).sum

/-- The negative terms together. -/
def negatives (xs : List α) : α := (xs.map (min · 0)).sum

/-- Within the bounds. -/
def Within (lo hi a : α) : Prop := lo ≤ a ∧ a ≤ hi

instance (lo hi a : α) : Decidable (Within lo hi a) := inferInstanceAs (Decidable (_ ∧ _))

variable {lo hi : α}

theorem positives_nonneg (xs : List α) : 0 ≤ positives xs :=
  List.sum_nonneg (by simp)

theorem negatives_nonpos (xs : List α) : negatives xs ≤ 0 := by
  induction xs with
  | nil => simp [negatives]
  | cons x xs ih =>
    rw [negatives, List.map_cons, List.sum_cons]
    exact add_nonpos (min_le_right x 0) ih

omit [IsOrderedAddMonoid α] in
theorem positives_eq (xs : List α) : positives xs = (xs.filter (0 < ·)).sum := by
  induction xs with
  | nil => rfl
  | cons x xs ih =>
    rw [positives, List.map_cons, List.sum_cons, ← positives, ih]
    by_cases hx : 0 < x
    · rw [List.filter_cons_of_pos (by simpa using hx), List.sum_cons, max_eq_left hx.le]
    · rw [List.filter_cons_of_neg (by simpa using hx), max_eq_right (not_lt.mp hx), zero_add]

omit [IsOrderedAddMonoid α] in
theorem negatives_eq (xs : List α) : negatives xs = (xs.filter fun x ↦ !decide (0 < x)).sum := by
  induction xs with
  | nil => rfl
  | cons x xs ih =>
    rw [negatives, List.map_cons, List.sum_cons, ← negatives, ih]
    by_cases hx : 0 < x
    · rw [List.filter_cons_of_neg (by simpa using hx), min_eq_right hx.le, zero_add]
    · rw [List.filter_cons_of_pos (by simpa using hx), List.sum_cons, min_eq_left (not_lt.mp hx)]

/-- Within the bounds as long as neither kind of terms can carry the sum out of them. -/
theorem stays_of_parts {a : α} {xs : List α} (hlo : lo ≤ a + negatives xs)
    (hhi : a + positives xs ≤ hi) : Stays (Within lo hi) a xs := by
  induction xs generalizing a with
  | nil => trivial
  | cons x xs ih =>
    rw [negatives, List.map_cons, List.sum_cons, ← negatives, ← add_assoc] at hlo
    rw [positives, List.map_cons, List.sum_cons, ← positives, ← add_assoc] at hhi
    have hmin : a + min x 0 + negatives xs ≤ a + x + negatives xs := by gcongr; exact min_le_left _ _
    have hmax : a + x + positives xs ≤ a + max x 0 + positives xs := by gcongr; exact le_max_left _ _
    have hlo' := hlo.trans hmin
    have hhi' := hmax.trans hhi
    refine ⟨⟨hlo'.trans ?_, le_trans ?_ hhi'⟩, ih hlo' hhi'⟩
    · exact add_le_of_nonpos_right (negatives_nonpos xs)
    · exact le_add_of_nonneg_right (positives_nonneg xs)

/-- **Every order stays within the bounds iff the positive and the negative terms do.** The order
that tells is the one that adds the terms of one sign first. -/
theorem forall_perm_stays_iff (xs : List α) (h0 : Within lo hi 0) :
    (∀ ys : List α, ys.Perm xs → Stays (Within lo hi) 0 ys) ↔
      lo ≤ negatives xs ∧ positives xs ≤ hi := by
  constructor
  · intro h
    have hpos := h _ (List.filter_append_perm (fun x ↦ decide (0 < x)) xs)
    have hneg := h _ (List.perm_append_comm.trans
      (List.filter_append_perm (fun x ↦ decide (0 < x)) xs))
    have hpos := (stays_append.mp hpos).1.sum h0
    have hneg := (stays_append.mp hneg).1.sum h0
    rw [zero_add, ← positives_eq] at hpos
    rw [zero_add, ← negatives_eq] at hneg
    exact ⟨hneg.1, hpos.2⟩
  · rintro ⟨hlo, hhi⟩ ys hperm
    have hpos : positives ys = positives xs := (hperm.map _).sum_eq
    have hneg : negatives ys = negatives xs := (hperm.map _).sum_eq
    exact stays_of_parts (by rwa [zero_add, hneg]) (by rwa [zero_add, hpos])

end Order

end RunningSum
