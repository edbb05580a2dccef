import Mathlib.Data.List.Infix

/-!
# Separators

When a concatenation of parts can be taken apart again: at the first separator, if the part before
it has none; and at the first two separators in a row, if neither the part before has two in a row
nor the part after begins with one. In the second case the part before may end with a separator.

The first case is a name that may not contain the separator; the second one is a name that may
contain it once but not twice in a row. Names derived from others by joining them are told apart by
one of the two.
-/

namespace Separator

variable {α : Type*} {a : α} {s s' t t' : List α}

/-- **What stands before and after the first separator is determined.** -/
theorem append_inj (hs : a ∉ s) (hs' : a ∉ s') (h : s ++ a :: t = s' ++ a :: t') :
    s = s' ∧ t = t' := by
  rcases List.append_eq_append_iff.mp h with ⟨x, rfl, hx⟩ | ⟨x, rfl, hx⟩
  · cases x with
    | nil => exact ⟨(List.append_nil s).symm, (List.cons.inj hx).2⟩
    | cons b x =>
      obtain ⟨rfl, -⟩ := List.cons.inj hx
      simp at hs'
  · cases x with
    | nil => exact ⟨List.append_nil s', (List.cons.inj hx).2.symm⟩
    | cons b x =>
      obtain ⟨rfl, -⟩ := List.cons.inj hx
      simp at hs

/-- One side of `double_inj`: nothing can be added to the part before. -/
theorem eq_nil_of_double {x : List α} (hs' : ¬ [a, a] <:+: s ++ x) (ht : t.head? ≠ some a)
    (h : a :: a :: t = x ++ a :: a :: t') : x = [] := by
  rcases x with _ | ⟨b, _ | ⟨c, y⟩⟩
  · rfl
  · -- one separator more: the part after would begin with a separator
    simp only [List.cons_append, List.nil_append, List.cons.injEq] at h
    exact absurd (by rw [h.2.2]; rfl) ht
  · simp only [List.cons_append, List.cons.injEq] at h
    obtain ⟨rfl, rfl, -⟩ := h
    exact absurd ⟨s, y, by simp⟩ hs'

/-- **What stands before and after two separators in a row is determined.** -/
theorem double_inj (hs : ¬ [a, a] <:+: s) (hs' : ¬ [a, a] <:+: s') (ht : t.head? ≠ some a)
    (ht' : t'.head? ≠ some a) (h : s ++ a :: a :: t = s' ++ a :: a :: t') : s = s' ∧ t = t' := by
  rcases List.append_eq_append_iff.mp h with ⟨x, rfl, hx⟩ | ⟨x, rfl, hx⟩
  · obtain rfl := eq_nil_of_double hs' ht hx
    exact ⟨(List.append_nil s).symm, by simpa using hx⟩
  · obtain rfl := eq_nil_of_double hs ht' hx
    exact ⟨List.append_nil s', by simpa [eq_comm] using hx⟩

end Separator
