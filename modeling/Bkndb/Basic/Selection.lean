import Mathlib.Data.List.Perm.Basic
import Mathlib.Data.Prod.Lex

/-!
# Bounded selection

The greatest of a sequence of pairs, selected with a heap of bounded size: a pair that is offered to
a full heap replaces the least one if its first component is greater. What is kept and what was
dropped make up what was offered, and nothing dropped is greater than anything kept.

The heap is a list in no particular order: nothing depends on its shape, only on which pair is the
least. Ties between a new pair and the least one keep the old, so what is kept among equals depends
on the order of the offers, and `Selected` says nothing about that choice.
-/

namespace Selection

variable {κ ι : Type*} [LinearOrder κ] [LinearOrder ι]

/-- Offer a pair to a heap that keeps at most `limit` of them. -/
def offer (limit : ℕ) (heap : List (κ ×ₗ ι)) (x : κ ×ₗ ι) : List (κ ×ₗ ι) :=
  if heap.length < limit then x :: heap
  else
    match heap.min? with
    | some least => if (ofLex least).1 < (ofLex x).1 then x :: heap.erase least else heap
    | none => heap

/-- What a heap keeps of the pairs that were offered. -/
structure Selected (limit : ℕ) (offered heap dropped : List (κ ×ₗ ι)) : Prop where
  perm : offered.Perm (heap ++ dropped)
  length_le : heap.length ≤ limit
  /-- Nothing is dropped by a heap that is not full. -/
  full : dropped ≠ [] → heap.length = limit
  /-- What was dropped is not greater than what is kept. -/
  best : ∀ x ∈ heap, ∀ y ∈ dropped, (ofLex y).1 ≤ (ofLex x).1

theorem fst_le_of_le {x y : κ ×ₗ ι} (h : x ≤ y) : (ofLex x).1 ≤ (ofLex y).1 :=
  Prod.Lex.monotone_fst x y h

/-- **One offer.** -/
theorem Selected.offer {limit : ℕ} {offered heap dropped : List (κ ×ₗ ι)}
    (h : Selected limit offered heap dropped) (x : κ ×ₗ ι) :
    ∃ dropped', Selected limit (offered ++ [x]) (offer limit heap x) dropped' := by
  have hoffered : (offered ++ [x]).Perm (x :: (heap ++ dropped)) :=
    (List.perm_append_singleton x offered).trans (h.perm.cons x)
  rw [Selection.offer]
  split_ifs with hroom
  · obtain rfl : dropped = [] := by
      by_contra hne
      exact absurd (h.full hne) (ne_of_lt hroom)
    exact ⟨[], hoffered, hroom, fun hne ↦ absurd rfl hne, by simp⟩
  · have hlen : heap.length = limit := le_antisymm h.length_le (not_lt.mp hroom)
    -- the pair that is dropped, if the heap stays as it is
    have hkeep : (∀ y ∈ heap, (ofLex x).1 ≤ (ofLex y).1) →
        Selected limit (offered ++ [x]) heap (x :: dropped) := fun hle ↦ by
      refine ⟨hoffered.trans List.perm_middle.symm, h.length_le, fun _ ↦ hlen, fun y hy z hz ↦ ?_⟩
      rcases List.mem_cons.mp hz with rfl | hz
      · exact hle y hy
      · exact h.best y hy z hz
    cases hmin : heap.min? with
    | none =>
      obtain rfl := List.min?_eq_none_iff.mp hmin
      exact ⟨_, hkeep (by simp)⟩
    | some least =>
      obtain ⟨hmem, hle⟩ := List.min?_eq_some_iff.mp hmin
      simp only []
      split_ifs with hlt
      · refine ⟨least :: dropped, ?_, ?_, fun _ ↦ ?_, fun y hy z hz ↦ ?_⟩
        · refine hoffered.trans ?_
          rw [List.cons_append]
          refine List.Perm.cons x ?_
          refine ((List.perm_cons_erase hmem).append_right dropped).trans ?_
          exact List.perm_middle.symm
        · rw [List.length_cons, List.length_erase_of_mem hmem,
            Nat.sub_add_cancel (List.length_pos_of_mem hmem)]
          exact h.length_le
        · rw [List.length_cons, List.length_erase_of_mem hmem,
            Nat.sub_add_cancel (List.length_pos_of_mem hmem), hlen]
        · have hz : (ofLex z).1 ≤ (ofLex least).1 := by
            rcases List.mem_cons.mp hz with rfl | hz
            · exact le_rfl
            · exact h.best least hmem z hz
          rcases List.mem_cons.mp hy with rfl | hy
          · exact hz.trans hlt.le
          · exact hz.trans (fst_le_of_le (hle y (List.mem_of_mem_erase hy)))
      · exact ⟨_, hkeep fun y hy ↦ (not_lt.mp hlt).trans (fst_le_of_le (hle y hy))⟩

end Selection
