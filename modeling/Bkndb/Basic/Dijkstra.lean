import Mathlib.Algebra.Order.Monoid.Canonical.Defs
import Mathlib.Algebra.BigOperators.Group.List.Basic
import Bkndb.Basic.Search

/-!
# Lowest-cost walks

Dijkstra's search along a labelled relation whose labels have a cost, zero allowed. The search keeps
the lowest cost it knows for each node, the parent it was reached from, and a heap of the nodes to
look at. An improvement adds an entry and leaves the old one in the heap, where it is stale.

A node is settled when its entry is taken off the heap. From then on its cost is final: no settled
node costs more than any entry of the heap, and costs are not negative. The way back from a node runs
over settled nodes, whose parents no longer change, so it ends, also along steps that cost nothing.
A walk that leaves the settled nodes does so through the heap, so the entry at the top of the heap
costs no more than any walk to its node.

## The state is not the code's

`Settling` holds the costs, the parents and the heap as functions and lists of any linearly ordered
cost. An implementation with hash maps and a binary heap keeps a `Settling` on the side: each of
its steps is a stale entry dropped, the top of the heap settled, or an improvement along one step.
The rules below are these steps.

## Waived steps

While the edges of the node settled last are being looked at, the invariant that all steps from
settled nodes are accounted for fails for those not yet seen. `Relaxed` names the steps that are
waived, so the loop over the edges has the same invariant as the loop over the heap, with a list
that gets shorter.
-/

namespace Search

variable {α β W : Type*} [AddCommMonoid W]

/-- The cost of the steps of a walk. -/
def walkCost (cost : β → W) (steps : List (β × α)) : W := (steps.map fun e ↦ cost e.1).sum

@[simp] theorem walkCost_nil (cost : β → W) : walkCost cost ([] : List (β × α)) = 0 := rfl

@[simp] theorem walkCost_snoc (cost : β → W) (steps : List (β × α)) (l : β) (c : α) :
    walkCost cost (steps ++ [(l, c)]) = walkCost cost steps + cost l := by
  simp [walkCost]

variable [LinearOrder W]

/-- The state of a search that has settled some nodes: for each node the lowest cost known and the
node and label it was reached by, and the heap with the costs its entries were made for. -/
structure Settling (E : α → β → α → Prop) (cost : β → W) (start : α) (settled : List α)
    (dist : α → Option W) (parent : α → Option (α × β)) (heap : List (W × α)) : Prop where
  /-- The start costs nothing. -/
  dist_start : dist start = some 0
  /-- The way back from a node runs over settled nodes and costs what is known for it. -/
  back : ∀ c d, dist c = some d → ∃ steps, Traces parent start c steps ∧
    Walk E start steps c ∧ walkCost cost steps = d ∧ ∀ e ∈ steps, e.2 ∈ settled ∨ e.2 = c
  /-- Settled nodes were reached. -/
  reached : ∀ u ∈ settled, ∃ d, dist u = some d
  /-- A node that was reached and not settled is in the heap. -/
  queued : ∀ c d, dist c = some d → c ∉ settled → (d, c) ∈ heap
  /-- Every entry was entered for its node's cost, or for more; those of settled nodes are stale. -/
  sound : ∀ e ∈ heap, ∃ d, dist e.2 = some d ∧ (d < e.1 ∨ d = e.1 ∧ e.2 ∉ settled)
  /-- No settled node costs more than an entry. -/
  behind : ∀ u ∈ settled, ∀ d, dist u = some d → ∀ e ∈ heap, d ≤ e.1
  /-- No entry is there twice. -/
  nodup : heap.Nodup

/-- The steps from settled nodes are accounted for, but for those that are waived. -/
def Relaxed (E : α → β → α → Prop) (cost : β → W) (settled : List α) (dist : α → Option W)
    (waived : α → β → α → Prop) : Prop :=
  ∀ u ∈ settled, ∀ d, dist u = some d → ∀ l c, E u l c →
    waived u l c ∨ ∃ d', dist c = some d' ∧ d' ≤ d + cost l

variable {E : α → β → α → Prop} {cost : β → W} {start v c : α} {l : β} {settled : List α}
  {dist : α → Option W} {parent : α → Option (α × β)} {heap rest : List (W × α)} {d k : W}

theorem Settling.init [DecidableEq α] (E : α → β → α → Prop) (cost : β → W) (start : α) :
    Settling E cost start [] (fun c ↦ if c = start then some 0 else none) (fun _ ↦ none)
      [(0, start)] where
  dist_start := if_pos rfl
  back c d h := by
    split_ifs at h with hc
    obtain rfl := Option.some.inj h
    subst hc
    exact ⟨[], .start, .nil, rfl, by simp⟩
  reached u hu := absurd hu List.not_mem_nil
  queued c d h _ := by
    split_ifs at h with hc
    obtain rfl := Option.some.inj h
    exact hc ▸ List.mem_singleton_self _
  sound e he := by
    obtain rfl := List.mem_singleton.mp he
    exact ⟨0, if_pos rfl, .inr ⟨rfl, List.not_mem_nil⟩⟩
  behind u hu := absurd hu List.not_mem_nil
  nodup := List.nodup_singleton _

theorem Settling.stale (h : Settling E cost start settled dist parent ((k, c) :: rest))
    (hd : dist c = some d) (hlt : d < k) : Settling E cost start settled dist parent rest where
  dist_start := h.dist_start
  back := h.back
  reached := h.reached
  queued c' d' hd' hc' := by
    rcases List.mem_cons.mp (h.queued c' d' hd' hc') with heq | hmem
    · obtain ⟨rfl, rfl⟩ := Prod.mk.inj heq
      obtain rfl := Option.some.inj (hd.symm.trans hd')
      exact absurd hlt (lt_irrefl _)
    · exact hmem
  sound e he := h.sound e (List.mem_cons_of_mem _ he)
  behind u hu d' hd' e he := h.behind u hu d' hd' e (List.mem_cons_of_mem _ he)
  nodup := (List.nodup_cons.mp h.nodup).2

/-- **The top of the heap is settled**, if it is not stale. No settled node costs more. -/
theorem Settling.settle (h : Settling E cost start settled dist parent ((d, v) :: rest))
    (hmin : ∀ e ∈ rest, d ≤ e.1) (hd : dist v = some d) :
    Settling E cost start (v :: settled) dist parent rest ∧ v ∉ settled ∧
      ∀ u ∈ v :: settled, ∀ d', dist u = some d' → d' ≤ d := by
  have hnodup := List.nodup_cons.mp h.nodup
  have hnew : v ∉ settled := by
    obtain ⟨d', hd', hlt | ⟨-, hv⟩⟩ := h.sound (d, v) List.mem_cons_self
    · obtain rfl := Option.some.inj (hd.symm.trans hd')
      exact absurd hlt (lt_irrefl _)
    · exact hv
  have hlast : ∀ u ∈ v :: settled, ∀ d', dist u = some d' → d' ≤ d := by
    intro u hu d' hd'
    rcases List.mem_cons.mp hu with rfl | hu
    · exact (Option.some.inj (hd'.symm.trans hd)).le
    · exact h.behind u hu d' hd' (d, v) List.mem_cons_self
  refine ⟨⟨h.dist_start, fun c' d' hc' ↦ ?_, fun u hu ↦ ?_, fun c' d' hc' hnot ↦ ?_, fun e he ↦ ?_,
    fun u hu d' hd' e he ↦ (hlast u hu d' hd').trans (hmin e he), hnodup.2⟩, hnew, hlast⟩
  · obtain ⟨steps, ht, hw, hcost, hsteps⟩ := h.back c' d' hc'
    exact ⟨steps, ht, hw, hcost, fun e he ↦ (hsteps e he).imp_left (List.mem_cons_of_mem _)⟩
  · rcases List.mem_cons.mp hu with rfl | hu
    · exact ⟨d, hd⟩
    · exact h.reached u hu
  · rw [List.mem_cons, not_or] at hnot
    rcases List.mem_cons.mp (h.queued c' d' hc' hnot.2) with heq | hmem
    · exact absurd (Prod.mk.inj heq).2 hnot.1
    · exact hmem
  · obtain ⟨d', hd', hlt | ⟨rfl, hnot⟩⟩ := h.sound e (List.mem_cons_of_mem _ he)
    · exact ⟨d', hd', .inl hlt⟩
    · refine ⟨e.1, hd', .inr ⟨rfl, ?_⟩⟩
      rw [List.mem_cons, not_or]
      refine ⟨?_, hnot⟩
      -- an equal entry for `v` would be the one that was taken
      rintro rfl
      obtain rfl := Option.some.inj (hd.symm.trans hd')
      exact hnodup.1 he

theorem Traces.congr {parent parent' : α → Option (α × β)} {steps : List (β × α)}
    (h : Traces parent start c steps) (hp : ∀ e ∈ steps, parent' e.2 = parent e.2) :
    Traces parent' start c steps := by
  induction h with
  | start => exact .start
  | @step p c l steps hne hparent _ ih =>
    have hlast : (l, c) ∈ steps ++ [(l, c)] := List.mem_append_right _ (List.mem_singleton_self _)
    exact .step hne ((hp _ hlast).trans hparent) (ih fun e he ↦ hp e (List.mem_append_left _ he))

section Improve

variable [CanonicallyOrderedAdd W]

/-- **An improvement along a step from the node settled last** does not touch a settled node. -/
theorem Settling.improve [DecidableEq α] (h : Settling E cost start settled dist parent heap)
    (hv : v ∈ settled) (hd : dist v = some d)
    (hlast : ∀ u ∈ settled, ∀ d', dist u = some d' → d' ≤ d) (hE : E v l c)
    (hbetter : ∀ d', dist c = some d' → d + cost l < d') {heap' : List (W × α)}
    (hheap : heap'.Perm ((d + cost l, c) :: heap)) :
    c ∉ settled ∧ Settling E cost start settled (Function.update dist c (some (d + cost l)))
      (Function.update parent c (some (v, l))) heap' := by
  have hle : d ≤ d + cost l := le_self_add
  have hnew : c ∉ settled := by
    intro hc
    obtain ⟨d', hd'⟩ := h.reached c hc
    exact absurd ((hbetter d' hd').trans_le (hlast c hc d' hd')) (not_lt.mpr hle)
  have hne : c ≠ start := by
    rintro rfl
    exact absurd (hbetter 0 h.dist_start) not_lt_zero
  have hold : ∀ {u}, u ∈ settled → Function.update dist c (some (d + cost l)) u = dist u := by
    intro u hu
    exact Function.update_of_ne (ne_of_mem_of_not_mem hu hnew) ..
  refine ⟨hnew, ⟨(Function.update_of_ne hne.symm ..).trans h.dist_start, fun c' d' hc' ↦ ?_,
    fun u hu ↦ ?_, fun c' d' hc' hnot ↦ ?_, fun e he ↦ ?_, fun u hu d' hd' e he ↦ ?_, ?_⟩⟩
  · by_cases hcc : c' = c
    · subst hcc
      rw [Function.update_self, Option.some_inj] at hc'
      obtain ⟨steps, ht, hw, hcost, hsteps⟩ := h.back v d hd
      refine ⟨steps ++ [(l, c')], .step hne (Function.update_self ..) (ht.congr fun e he ↦ ?_),
        .snoc hw hE, by rw [walkCost_snoc, hcost, hc'], fun e he ↦ ?_⟩
      · refine Function.update_of_ne (fun heq ↦ hnew ?_) ..
        rcases hsteps e he with hmem | hlast
        · exact heq ▸ hmem
        · exact (heq.symm.trans hlast) ▸ hv
      · rcases List.mem_append.mp he with he | he
        · rcases hsteps e he with hmem | hlast
          · exact .inl hmem
          · exact .inl (hlast ▸ hv)
        · exact .inr (by rw [List.mem_singleton.mp he])
    · rw [Function.update_of_ne hcc] at hc'
      obtain ⟨steps, ht, hw, hcost, hsteps⟩ := h.back c' d' hc'
      refine ⟨steps, ht.congr fun e he ↦ Function.update_of_ne (fun heq ↦ ?_) .., hw, hcost, hsteps⟩
      rcases hsteps e he with hmem | hlast
      · exact hnew (heq ▸ hmem)
      · exact hcc (hlast.symm.trans heq)
  · obtain ⟨d', hd'⟩ := h.reached u hu
    exact ⟨d', (hold hu).trans hd'⟩
  · by_cases hcc : c' = c
    · subst hcc
      rw [Function.update_self, Option.some_inj] at hc'
      exact hheap.mem_iff.mpr (hc' ▸ List.mem_cons_self)
    · rw [Function.update_of_ne hcc] at hc'
      exact hheap.mem_iff.mpr (List.mem_cons_of_mem _ (h.queued c' d' hc' hnot))
  · rcases List.mem_cons.mp (hheap.mem_iff.mp he) with rfl | he
    · exact ⟨_, Function.update_self .., .inr ⟨rfl, hnew⟩⟩
    · obtain ⟨d', hd', hle'⟩ := h.sound e he
      by_cases hcc : e.2 = c
      · refine ⟨d + cost l, by rw [hcc]; exact Function.update_self .., .inl ?_⟩
        have hlt := hbetter d' (hcc ▸ hd')
        rcases hle' with hle' | ⟨rfl, -⟩
        · exact hlt.trans hle'
        · exact hlt
      · exact ⟨d', (Function.update_of_ne hcc ..).trans hd', hle'⟩
  · rw [hold hu] at hd'
    rcases List.mem_cons.mp (hheap.mem_iff.mp he) with rfl | he
    · exact (hlast u hu d' hd').trans hle
    · exact h.behind u hu d' hd' e he
  · refine hheap.nodup_iff.mpr (List.nodup_cons.mpr ⟨fun hmem ↦ ?_, h.nodup⟩)
    obtain ⟨d', hd', hlt | ⟨heq, -⟩⟩ := h.sound _ hmem
    · exact absurd (hlt.trans (hbetter d' hd')) (lt_irrefl _)
    · exact absurd (hbetter d' hd') (heq ▸ lt_irrefl _)

end Improve

theorem Relaxed.mono {dist' : α → Option W} {waived waived' : α → β → α → Prop}
    (h : Relaxed E cost settled dist waived) (hsame : ∀ u ∈ settled, dist' u = dist u)
    (hle : ∀ c d, dist c = some d → ∃ d', dist' c = some d' ∧ d' ≤ d)
    (hw : ∀ u ∈ settled, ∀ d, dist u = some d → ∀ l c, E u l c → waived u l c →
      waived' u l c ∨ ∃ d', dist' c = some d' ∧ d' ≤ d + cost l) :
    Relaxed E cost settled dist' waived' := by
  intro u hu d hd l c hE
  rw [hsame u hu] at hd
  rcases h u hu d hd l c hE with hwaived | ⟨d', hd', hle'⟩
  · exact hw u hu d hd l c hE hwaived
  · obtain ⟨d'', hd'', hle''⟩ := hle c d' hd'
    exact .inr ⟨d'', hd'', hle''.trans hle'⟩

/-! ## Optimality

What a walk costs is compared with the heap. A walk that starts in a settled node either stays
among settled nodes, whose costs are final, or leaves them over a step that is accounted for, and
then the heap holds an entry that costs no more than the walk up to there. -/

variable [IsOrderedAddMonoid W] [CanonicallyOrderedAdd W]

/-- A walk ends in a settled node that costs no more, or it costs no less than an entry. -/
theorem Settling.frontier (h : Settling E cost start settled dist parent heap)
    (hr : Relaxed E cost settled dist fun _ _ _ ↦ False) {steps : List (β × α)}
    (hw : Walk E start steps c) :
    (c ∈ settled ∧ ∃ d, dist c = some d ∧ d ≤ walkCost cost steps) ∨
      ∃ e ∈ heap, e.1 ≤ walkCost cost steps := by
  induction hw with
  | nil =>
    by_cases hs : start ∈ settled
    · exact .inl ⟨hs, 0, h.dist_start, le_rfl⟩
    · exact .inr ⟨_, h.queued start 0 h.dist_start hs, le_rfl⟩
  | @snoc steps b c l _ hE ih =>
    rw [walkCost_snoc]
    rcases ih with ⟨hb, d, hd, hle⟩ | ⟨e, he, hle⟩
    · obtain ⟨d', hd', hle'⟩ := (hr b hb d hd l c hE).resolve_left id
      have hstep : d' ≤ walkCost cost steps + cost l := hle'.trans (by gcongr)
      by_cases hs : c ∈ settled
      · exact .inl ⟨hs, d', hd', hstep⟩
      · exact .inr ⟨_, h.queued c d' hd' hs, hstep⟩
    · exact .inr ⟨e, he, hle.trans le_self_add⟩

/-- **The top of the heap**, if it is not settled, has the cost of its node, and no walk to it costs
less. -/
theorem Settling.least (h : Settling E cost start settled dist parent ((k, c) :: rest))
    (hr : Relaxed E cost settled dist fun _ _ _ ↦ False) (hmin : ∀ e ∈ rest, k ≤ e.1)
    (hc : c ∉ settled) :
    dist c = some k ∧ ∀ steps, Walk E start steps c → k ≤ walkCost cost steps := by
  have hle : ∀ e ∈ (k, c) :: rest, k ≤ e.1 := by
    intro e he
    rcases List.mem_cons.mp he with rfl | he
    · exact le_rfl
    · exact hmin e he
  refine ⟨?_, fun steps hw ↦ ?_⟩
  · obtain ⟨d, hd, hle'⟩ := h.sound (k, c) List.mem_cons_self
    have hk := hle _ (h.queued c d hd hc)
    rcases hle' with hlt | ⟨rfl, -⟩
    · exact absurd (hlt.trans_le hk) (lt_irrefl _)
    · exact hd
  · rcases h.frontier hr hw with ⟨hs, -⟩ | ⟨e, he, hcost⟩
    · exact absurd hs hc
    · exact (hle e he).trans hcost

/-- When the heap is empty, a node that is not settled was not reached, and there is no walk to
it. -/
theorem Settling.unreachable (h : Settling E cost start settled dist parent [])
    (hr : Relaxed E cost settled dist fun _ _ _ ↦ False) (hc : c ∉ settled) :
    dist c = none ∧ ∀ steps, ¬Walk E start steps c := by
  refine ⟨?_, fun steps hw ↦ ?_⟩
  · cases hd : dist c with
    | none => rfl
    | some d => exact absurd (h.queued c d hd hc) List.not_mem_nil
  · rcases h.frontier hr hw with ⟨hs, -⟩ | ⟨e, he, -⟩
    · exact hc hs
    · exact absurd he List.not_mem_nil

end Search
