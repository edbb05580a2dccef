import Mathlib.Data.List.Sort

/-!
# The first of a sorted list, kept as its elements arrive

A list of bounded length takes elements one by one and drops its last when it grows too long. What
it holds is the front of the sorted list of all that arrived; and where elements carry their order
of arrival and are sorted by it among equals, the sorted list is the stable sort.

## Two ways to the same list

Collecting everything, sorting it and cutting it to the first `k`, or keeping only `k` while the
elements arrive, give one list. For the order of equals to be the same as well, the sort has to be
stable and the elements have to carry the place at which they arrived.
-/

namespace TopK

variable {α : Type*}

section Push

variable (r : α → α → Prop) [DecidableRel r]

/-- Put an element in its place and drop the last if there are then too many. -/
def push (limit : ℕ) (kept : List α) (a : α) : List α :=
  let kept := kept.orderedInsert r a
  if limit < kept.length then kept.dropLast else kept

/-- The elements put in their places one by one. -/
def insertAll (l : List α) (as : List α) : List α := as.foldl (fun l a ↦ l.orderedInsert r a) l

theorem push_eq_take {limit : ℕ} {kept : List α} {a : α} (h : kept.length ≤ limit) :
    push r limit kept a = (kept.orderedInsert r a).take limit := by
  have hlen := List.orderedInsert_length r kept a
  rw [push]
  split
  · rw [List.dropLast_eq_take]
    congr 1
    omega
  · rw [List.take_of_length_le (by omega)]

theorem take_orderedInsert_take (limit : ℕ) (l : List α) (a : α) :
    ((l.take limit).orderedInsert r a).take limit = (l.orderedInsert r a).take limit := by
  induction l generalizing limit with
  | nil => simp
  | cons b l ih =>
    cases limit with
    | zero => simp
    | succ k =>
      rw [List.take_succ_cons, List.orderedInsert_cons, List.orderedInsert_cons]
      split
      · rw [List.take_succ_cons, List.take_succ_cons]
        congr 1
        cases k with
        | zero => rfl
        | succ k => rw [List.take_succ_cons, List.take_succ_cons, List.take_take,
            min_eq_left (Nat.le_succ k)]
      · rw [List.take_succ_cons, List.take_succ_cons, ih]

/-- **What is kept is the front of everything in order.** -/
theorem foldl_push (limit : ℕ) (l as : List α) :
    as.foldl (push r limit) (l.take limit) = (insertAll r l as).take limit := by
  induction as generalizing l with
  | nil => rfl
  | cons a as ih =>
    rw [List.foldl_cons, push_eq_take r (List.length_take_le limit l),
      take_orderedInsert_take, ih]
    rfl

theorem perm_insertAll (l as : List α) : (insertAll r l as).Perm (as ++ l) := by
  induction as generalizing l with
  | nil => exact .refl l
  | cons a as ih =>
    exact (ih _).trans (((List.perm_orderedInsert r a l).append_left as).trans List.perm_middle)

theorem pairwise_insertAll [Std.Total r] [IsTrans α r] {l : List α} (hl : l.Pairwise r)
    (as : List α) : (insertAll r l as).Pairwise r := by
  induction as generalizing l with
  | nil => exact hl
  | cons a as ih => exact ih (hl.orderedInsert a)

end Push

section Stable

variable {le : α → α → Bool}

theorem pairwise_mergeSort_stable (trans : ∀ a b c, le a b → le b c → le a c)
    (total : ∀ a b, le a b || le b a) {before : α → α → Prop} {l : List α}
    (hl : l.Pairwise before) :
    (l.mergeSort le).Pairwise fun a b ↦ le a b ∧ (le b a → before a b) := by
  induction l with
  | nil => simp
  | cons a l ih =>
    obtain ⟨l₁, l₂, hcons, hrest, hlt⟩ := List.mergeSort_cons trans total a l
    have hsorted := List.pairwise_mergeSort trans total (a :: l)
    rw [hcons] at hsorted ⊢
    obtain ⟨hbefore, hl⟩ := List.pairwise_cons.mp hl
    have ih := ih hl
    rw [hrest] at ih
    obtain ⟨h₁, h₂, hcross⟩ := List.pairwise_append.mp ih
    obtain ⟨-, hs₂, hscross⟩ := List.pairwise_append.mp hsorted
    refine List.pairwise_append.mpr ⟨h₁, List.pairwise_cons.mpr ⟨fun b hb ↦ ?_, h₂⟩, fun b hb c hc ↦ ?_⟩
    · have hmem : b ∈ l := List.mem_mergeSort.mp (hrest ▸ List.mem_append_right l₁ hb)
      exact ⟨List.rel_of_pairwise_cons hs₂ hb, fun _ ↦ hbefore b hmem⟩
    · rcases List.mem_cons.mp hc with rfl | hc
      · refine ⟨hscross b hb c List.mem_cons_self, fun hcb ↦ ?_⟩
        have := hlt b hb
        simp [hcb] at this
      · exact hcross b hb c hc

/-- **A list in order, with equals in the order of arrival, is the stable sort.** -/
theorem eq_mergeSort (trans : ∀ a b c, le a b → le b c → le a c)
    (total : ∀ a b, le a b || le b a) {before : α → α → Prop}
    (hasymm : ∀ a b, before a b → ¬ before b a) {l s : List α} (hl : l.Pairwise before)
    (hperm : s.Perm l) (hs : s.Pairwise fun a b ↦ le a b ∧ (le b a → before a b)) :
    s = l.mergeSort le := by
  refine (hperm.trans (List.mergeSort_perm l le).symm).eq_of_pairwise ?_ hs
    (pairwise_mergeSort_stable trans total hl)
  intro a b _ _ hab hba
  exact absurd (hba.2 hab.1) (hasymm a b (hab.2 hba.1))

end Stable

end TopK
