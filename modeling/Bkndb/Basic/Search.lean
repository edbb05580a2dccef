import Mathlib.Data.List.AList
import Mathlib.Data.List.Perm.Subperm
import Mathlib.Order.Nat

/-!
# Walks and breadth-first search

Walks along a labelled relation, and a breadth-first search that keeps what it has found in the
order it was found. Every entry has a parent before it, one step closer to the start; the entries
that were processed have all their successors among the entries, and no entry is more than one
level deeper than an entry still in the queue. When the queue is empty the depth of an entry is its
distance from the start, and every node within the depths that are expanded is there.

## Entries, not nodes

The search keeps entries (a node, its depth and where it was found from) in the order it found
them, so the queue, the set of what was seen and the map of the parents are all read off one list.
An implementation keeps them separately; `Searched` is what its state amounts to.

## Depth bounds

Not every depth need be expanded: `expands` says which. A search that stops at a depth, or as soon
as it meets its goal, is the same search with other depths, and `mem_iff` says what it has found
when the queue is empty.

## Main results

* `Searched.isDist`: the depth of an entry is its distance from the start, at any time.
* `Searched.mem_iff`: what a finished search has found.
* `Grown.traces`: following the parents leads back to the start, along a walk as long as the depth.
-/

namespace Search

variable {α β : Type*}

/-! ## Walks -/

/-- A walk along `E` from `a`: the labels and the nodes of its steps. -/
inductive Walk (E : α → β → α → Prop) (a : α) : List (β × α) → α → Prop
  | nil : Walk E a [] a
  | snoc {steps : List (β × α)} {b c : α} {l : β} :
      Walk E a steps b → E b l c → Walk E a (steps ++ [(l, c)]) c

/-- `b` is `n` steps away from `a`, and no fewer. -/
structure IsDist (E : α → β → α → Prop) (a b : α) (n : ℕ) : Prop where
  walk : ∃ steps, Walk E a steps b ∧ steps.length = n
  le : ∀ steps, Walk E a steps b → n ≤ steps.length

variable {E : α → β → α → Prop} {a b c start : α} {l : β} {n : ℕ}

theorem IsDist.unique {m : ℕ} (hm : IsDist E a b m) (hn : IsDist E a b n) : m = n := by
  obtain ⟨steps, hw, rfl⟩ := hm.walk
  obtain ⟨steps', hw', rfl⟩ := hn.walk
  exact le_antisymm (hm.le _ hw') (hn.le _ hw)

theorem Walk.eq_of_nil (h : Walk E a [] b) : b = a := by
  generalize hs : ([] : List (β × α)) = steps at h
  cases h with
  | nil => rfl
  | snoc _ _ => simp at hs

theorem Walk.first {steps : List (β × α)} (h : Walk E a steps b) :
    steps = [] ∨ ∃ l c, E a l c := by
  induction h with
  | nil => exact .inl rfl
  | @snoc steps b c l hw hE ih =>
    rcases ih with rfl | hfirst
    · obtain rfl := hw.eq_of_nil
      exact .inr ⟨l, c, hE⟩
    · exact .inr hfirst

/-! ## What a search has found -/

/-- A node with its depth and, but for the start, the parent and the label it was found by. -/
structure Found (α β : Type*) where
  node : α
  depth : ℕ
  via : Option (α × β)

/-- The entry of the start. -/
def root (start : α) : Found α β := ⟨start, 0, none⟩

/-- The entry of a node found from `p`. -/
def child (p : Found α β) (l : β) (c : α) : Found α β := ⟨c, p.depth + 1, some (p.node, l)⟩

/-- The entries of a search: each new one is one level below an entry that is there, and no entry
is deeper. -/
inductive Grown (E : α → β → α → Prop) (start : α) : List (Found α β) → Prop
  | root : Grown E start [root start]
  | child {found : List (Found α β)} {p : Found α β} {l : β} {c : α} :
      Grown E start found → p ∈ found → E p.node l c → c ∉ found.map Found.node →
      (∀ x ∈ found, x.depth ≤ p.depth + 1) → Grown E start (found ++ [child p l c])

namespace Grown

variable {found : List (Found α β)}

theorem head (h : Grown E start found) : ∃ rest, found = Search.root start :: rest := by
  induction h with
  | root => exact ⟨[], rfl⟩
  | child _ _ _ _ _ ih =>
    obtain ⟨rest, rfl⟩ := ih
    exact ⟨_, List.cons_append⟩

theorem root_mem (h : Grown E start found) : Search.root start ∈ found := by
  obtain ⟨rest, rfl⟩ := h.head
  exact List.mem_cons_self

/-- No node is found twice. -/
theorem nodup (h : Grown E start found) : (found.map Found.node).Nodup := by
  induction h with
  | root => exact List.nodup_singleton _
  | @child found p l c _ _ _ hnew _ ih =>
    rw [List.map_append, List.nodup_append]
    refine ⟨ih, List.nodup_singleton _, fun a ha b hb ↦ ?_⟩
    obtain rfl := List.mem_singleton.mp hb
    rintro rfl
    exact hnew ha

/-- The depths ascend. -/
theorem sorted (h : Grown E start found) : found.Pairwise fun x y ↦ x.depth ≤ y.depth := by
  induction h with
  | root => exact List.pairwise_singleton _ _
  | @child found p l c _ _ _ _ hdepth ih =>
    rw [List.pairwise_append]
    refine ⟨ih, List.pairwise_singleton _ _, fun x hx y hy ↦ ?_⟩
    obtain rfl := List.mem_singleton.mp hy
    exact hdepth x hx

theorem inj (h : Grown E start found) {x y : Found α β} (hx : x ∈ found) (hy : y ∈ found)
    (hnode : x.node = y.node) : x = y :=
  List.inj_on_of_nodup_map h.nodup hx hy hnode

/-- Where an entry comes from. -/
theorem origin (h : Grown E start found) {x : Found α β} (hx : x ∈ found) :
    x = Search.root start ∨
      ∃ p ∈ found, ∃ l, x = Search.child p l x.node ∧ E p.node l x.node ∧ x.node ≠ start := by
  induction h with
  | root => exact .inl (List.mem_singleton.mp hx)
  | @child found p l c hg hp hE hnew _ ih =>
    rcases List.mem_append.mp hx with hx | hx
    · rcases ih hx with h | ⟨q, hq, l', hchild, hE', hne⟩
      · exact .inl h
      · exact .inr ⟨q, List.mem_append_left _ hq, l', hchild, hE', hne⟩
    · obtain rfl := List.mem_singleton.mp hx
      refine .inr ⟨p, List.mem_append_left _ hp, l, rfl, hE, ?_⟩
      rintro rfl
      exact hnew (List.mem_map_of_mem hg.root_mem)

/-- An entry is reached by a walk as long as its depth. -/
theorem walk (h : Grown E start found) {x : Found α β} (hx : x ∈ found) :
    ∃ steps, Walk E start steps x.node ∧ steps.length = x.depth := by
  induction h generalizing x with
  | root =>
    obtain rfl := List.mem_singleton.mp hx
    exact ⟨[], .nil, rfl⟩
  | @child found p l c _ hp hE _ _ ih =>
    rcases List.mem_append.mp hx with hx | hx
    · exact ih hx
    · obtain rfl := List.mem_singleton.mp hx
      obtain ⟨steps, hw, hlen⟩ := ih hp
      exact ⟨_, .snoc hw hE, by simp [hlen, Search.child]⟩

/-- No more entries than nodes there are. -/
theorem length_le (h : Grown E start found) {nodes : List α}
    (hU : ∀ b l c, E b l c → c ∈ nodes) : found.length ≤ nodes.length + 1 := by
  have hsub : found.map Found.node ⊆ start :: nodes := by
    intro c hc
    obtain ⟨x, hx, rfl⟩ := List.mem_map.mp hc
    rcases h.origin hx with hroot | ⟨p, -, l, -, hE, -⟩
    · exact hroot ▸ List.mem_cons_self
    · exact List.mem_cons_of_mem _ (hU _ _ _ hE)
  have hle := (h.nodup.subperm hsub).length_le
  simpa using hle

end Grown

/-! ## Parents -/

/-- Following the parents from a node leads to the start along these steps. -/
inductive Traces (parent : α → Option (α × β)) (start : α) : α → List (β × α) → Prop
  | start : Traces parent start start []
  | step {p c : α} {l : β} {steps : List (β × α)} : c ≠ start → parent c = some (p, l) →
      Traces parent start p steps → Traces parent start c (steps ++ [(l, c)])

namespace Traces

variable {parent : α → Option (α × β)} {steps steps' : List (β × α)}

theorem unique (h : Traces parent start c steps) (h' : Traces parent start c steps') :
    steps = steps' := by
  induction h generalizing steps' with
  | start =>
    cases h' with
    | start => rfl
    | step hne => exact absurd rfl hne
  | step hne hp _ ih =>
    cases h' with
    | start => exact absurd rfl hne
    | step _ hp' hrest =>
      obtain ⟨rfl, rfl⟩ := Prod.mk.inj (Option.some.inj (hp.symm.trans hp'))
      rw [ih hrest]

/-- A node on the way has a way of its own, and a parent. -/
theorem of_mem (h : Traces parent start c steps) {e : β × α} (he : e ∈ steps) :
    (∃ steps', Traces parent start e.2 steps' ∧ steps'.length ≤ steps.length) ∧
      (parent e.2).isSome := by
  induction h with
  | start => cases he
  | step hne hp hrest ih =>
    rcases List.mem_append.mp he with he | he
    · obtain ⟨⟨steps', h', hle⟩, hsome⟩ := ih he
      exact ⟨⟨steps', h', hle.trans (by simp)⟩, hsome⟩
    · obtain rfl := List.mem_singleton.mp he
      exact ⟨⟨_, .step hne hp hrest, le_rfl⟩, by simp [hp]⟩

/-- No node is met twice. -/
theorem nodup (h : Traces parent start c steps) : (steps.map Prod.snd).Nodup := by
  induction h with
  | start => exact .nil
  | @step p c l steps hne hp hrest ih =>
    rw [List.map_append, List.nodup_append]
    refine ⟨ih, List.nodup_singleton _, fun a ha b hb ↦ ?_⟩
    obtain rfl := List.mem_singleton.mp hb
    rintro rfl
    obtain ⟨e, he, rfl⟩ := List.mem_map.mp ha
    -- the way from a node met twice would be longer than itself
    obtain ⟨⟨steps', h', hle⟩, -⟩ := hrest.of_mem he
    have heq := h'.unique (.step hne hp hrest)
    rw [heq, List.length_append, List.length_singleton] at hle
    exact absurd hle (Nat.not_succ_le_self _)

/-- The way is no longer than the map of the parents. -/
theorem length_le (h : Traces parent start c steps) {keys : List α}
    (hkeys : ∀ b, (parent b).isSome → b ∈ keys) : steps.length ≤ keys.length := by
  have hsub : steps.map Prod.snd ⊆ keys := by
    intro b hb
    obtain ⟨e, he, rfl⟩ := List.mem_map.mp hb
    exact hkeys _ (h.of_mem he).2
  have hle := (h.nodup.subperm hsub).length_le
  rwa [List.length_map] at hle

end Traces

/-- **The parents of the entries lead back to the start**, along a walk as long as the depth. -/
theorem Grown.traces {found : List (Found α β)} (h : Grown E start found)
    {parent : α → Option (α × β)} (hparent : ∀ x ∈ found, parent x.node = x.via) {x : Found α β}
    (hx : x ∈ found) : ∃ steps, Traces parent start x.node steps ∧ Walk E start steps x.node ∧
      steps.length = x.depth := by
  induction h generalizing x with
  | root =>
    obtain rfl := List.mem_singleton.mp hx
    exact ⟨[], .start, .nil, rfl⟩
  | @child found p l c hg hp hE hnew _ ih =>
    replace ih := @ih fun y hy ↦ hparent y (List.mem_append_left _ hy)
    rcases List.mem_append.mp hx with hx' | hx'
    · exact ih hx'
    · obtain rfl := List.mem_singleton.mp hx'
      obtain ⟨steps, ht, hw, hlen⟩ := ih hp
      refine ⟨_, .step ?_ (hparent _ hx) ht, .snoc hw hE, by simp [hlen, Search.child]⟩
      rintro (rfl : c = start)
      exact hnew (List.mem_map_of_mem hg.root_mem)

/-! ## The search -/

/-- The state of a search: the entries that were processed, and the queue. An entry is expanded if
its depth is one of those in `expands`. -/
structure Searched (E : α → β → α → Prop) (expands : ℕ → Prop) (start : α)
    (done queue : List (Found α β)) : Prop where
  grown : Grown E start (done ++ queue)
  /-- The successors of what was expanded are there. -/
  closed : ∀ x ∈ done, expands x.depth → ∀ l c, E x.node l c →
    ∃ y ∈ done ++ queue, y.node = c ∧ y.depth ≤ x.depth + 1
  /-- The search is at most one level ahead of its queue. -/
  frontier : ∀ x ∈ done ++ queue, ∀ y ∈ queue, x.depth ≤ y.depth + 1
  /-- Nothing is deeper than what was expanded. -/
  within : ∀ x ∈ done ++ queue, ∀ m < x.depth, expands m

namespace Searched

variable {expands : ℕ → Prop} {done queue : List (Found α β)} {p : Found α β}

theorem init (E : α → β → α → Prop) (expands : ℕ → Prop) (start : α) :
    Searched E expands start [] [root start] :=
  ⟨.root, by simp, by simp, by simp [root]⟩

theorem skip (h : Searched E expands start done (p :: queue)) (hp : ¬expands p.depth) :
    Searched E expands start (done ++ [p]) queue := by
  have hlist : done ++ [p] ++ queue = done ++ p :: queue := by
    rw [List.append_assoc, List.singleton_append]
  refine ⟨hlist ▸ h.grown, fun x hx hexp ↦ ?_, fun x hx y hy ↦ ?_, hlist ▸ h.within⟩
  · rw [hlist]
    rcases List.mem_append.mp hx with hx | hx
    · exact h.closed x hx hexp
    · obtain rfl := List.mem_singleton.mp hx
      exact absurd hexp hp
  · rw [hlist] at hx
    exact h.frontier x hx y (List.mem_cons_of_mem _ hy)

/-- What is reached by a walk no longer than the queue is deep has been found. -/
theorem mem_of_walk (h : Searched E expands start done queue) {steps : List (β × α)}
    (hw : Walk E start steps c) (hexp : ∀ m < steps.length, expands m)
    (hqueue : ∀ y ∈ queue, steps.length ≤ y.depth) :
    ∃ x ∈ done ++ queue, x.node = c ∧ x.depth ≤ steps.length := by
  induction hw with
  | nil => exact ⟨_, h.grown.root_mem, rfl, le_rfl⟩
  | @snoc steps b c l _ hE ih =>
    rw [List.length_append, List.length_singleton] at hexp hqueue ⊢
    obtain ⟨x, hx, rfl, hle⟩ := ih (fun m hm ↦ hexp m (hm.trans (Nat.lt_succ_self _)))
      fun y hy ↦ (Nat.le_succ _).trans (hqueue y hy)
    have hdone : x ∈ done := by
      rcases List.mem_append.mp hx with hx | hx
      · exact hx
      · exact absurd (hqueue x hx) (by omega)
    obtain ⟨y, hy, hnode, hle'⟩ := h.closed x hdone
      (hexp x.depth (Nat.lt_succ_of_le hle)) l c hE
    exact ⟨y, hy, hnode, hle'.trans (Nat.succ_le_succ hle)⟩

/-- **The depth of an entry is its distance from the start**, at any time. -/
theorem isDist (h : Searched E expands start done queue) {x : Found α β}
    (hx : x ∈ done ++ queue) : IsDist E start x.node x.depth := by
  refine ⟨h.grown.walk hx, fun steps hw ↦ ?_⟩
  by_contra hlt
  rw [not_le] at hlt
  obtain ⟨y, hy, hnode, hle⟩ := h.mem_of_walk hw
    (fun m hm ↦ h.within x hx m (hm.trans hlt))
    fun y hy ↦ Nat.le_of_lt_succ (hlt.trans_le (h.frontier x hx y hy))
  obtain rfl := h.grown.inj hy hx hnode
  exact absurd hle (not_le.mpr hlt)

/-- **What a finished search has found**: what a walk within the expanded depths leads to. -/
theorem mem_iff (h : Searched E expands start done []) :
    (∃ x ∈ done, x.node = c) ↔ ∃ steps, Walk E start steps c ∧ ∀ m < steps.length, expands m := by
  have hlist : done ++ [] = done := List.append_nil done
  constructor
  · rintro ⟨x, hx, rfl⟩
    rw [← hlist] at hx
    obtain ⟨steps, hw, hlen⟩ := h.grown.walk hx
    exact ⟨steps, hw, hlen ▸ h.within x hx⟩
  · rintro ⟨steps, hw, hexp⟩
    obtain ⟨x, hx, hnode, -⟩ := h.mem_of_walk hw hexp (by simp)
    exact ⟨x, hlist ▸ hx, hnode⟩

end Searched

/-! ## Processing an entry -/

variable [DecidableEq α]

/-- The entries added for the successors of `p` that were not seen. -/
def fresh (p : Found α β) : List α → List (α × β) → List (Found α β)
  | _, [] => []
  | seen, (c, l) :: rest =>
    if c ∈ seen then fresh p seen rest else child p l c :: fresh p (c :: seen) rest

theorem depth_of_mem_fresh {p x : Found α β} {seen : List α} {next : List (α × β)}
    (hx : x ∈ fresh p seen next) : x.depth = p.depth + 1 := by
  induction next generalizing seen with
  | nil => cases hx
  | cons e next ih =>
    obtain ⟨c, l⟩ := e
    rw [fresh] at hx
    split at hx
    · exact ih hx
    · rcases List.mem_cons.mp hx with rfl | hx
      · rfl
      · exact ih hx

/-- Every successor was seen or is added. -/
theorem seen_or_fresh {p : Found α β} {seen : List α} {next : List (α × β)} {e : α × β}
    (he : e ∈ next) : e.1 ∈ seen ∨ e.1 ∈ (fresh p seen next).map Found.node := by
  induction next generalizing seen with
  | nil => cases he
  | cons e' next ih =>
    obtain ⟨c, l⟩ := e'
    rw [fresh]
    split
    · rename_i hseen
      rcases List.mem_cons.mp he with rfl | he
      · exact .inl hseen
      · exact ih he
    · rw [List.map_cons, List.mem_cons]
      rcases List.mem_cons.mp he with rfl | he
      · exact .inr (.inl rfl)
      · rcases @ih (c :: seen) he with hs | hf
        · rcases List.mem_cons.mp hs with hc | hs
          · exact .inr (.inl hc)
          · exact .inl hs
        · exact .inr (.inr hf)

/-- Entries found along `E` from an entry keep the entries well formed. -/
theorem Grown.fresh {found : List (Found α β)} (h : Grown E start found) {p : Found α β}
    (hp : p ∈ found) (hdepth : ∀ x ∈ found, x.depth ≤ p.depth + 1) {seen : List α}
    (hseen : ∀ c, c ∈ seen ↔ c ∈ found.map Found.node) {next : List (α × β)}
    (hE : ∀ e ∈ next, E p.node e.2 e.1) : Grown E start (found ++ Search.fresh p seen next) := by
  induction next generalizing found seen with
  | nil => simpa [Search.fresh] using h
  | cons e next ih =>
    obtain ⟨c, l⟩ := e
    rw [List.forall_mem_cons] at hE
    rw [Search.fresh]
    split
    · exact ih h hp hdepth hseen hE.2
    · rename_i hnew
      have hgrown : Grown E start (found ++ [Search.child p l c]) :=
        .child h hp hE.1 (fun hc ↦ hnew ((hseen c).mpr hc)) hdepth
      have hrest := @ih _ hgrown (List.mem_append_left _ hp) (fun x hx ↦ by
        rcases List.mem_append.mp hx with hx | hx
        · exact hdepth x hx
        · obtain rfl := List.mem_singleton.mp hx
          exact le_rfl) (c :: seen) (fun b ↦ by
        rw [List.mem_cons, List.map_append, List.mem_append, hseen]
        simp [Search.child, or_comm]) hE.2
      rwa [List.append_assoc, List.singleton_append] at hrest

/-- **One step of the search**: the head of the queue is expanded. -/
theorem Searched.expand {expands : ℕ → Prop} {done queue : List (Found α β)} {p : Found α β}
    (h : Searched E expands start done (p :: queue)) (hp : expands p.depth)
    {seen : List α} (hseen : ∀ c, c ∈ seen ↔ c ∈ (done ++ p :: queue).map Found.node)
    {next : List (α × β)}
    (hnext : ∀ c l, (c, l) ∈ next ↔ E p.node l c) :
    Searched E expands start (done ++ [p]) (queue ++ fresh p seen next) := by
  have hlist : done ++ [p] ++ (queue ++ fresh p seen next) =
      done ++ p :: queue ++ fresh p seen next := by
    simp
  have hdepth : ∀ x ∈ done ++ p :: queue, x.depth ≤ p.depth + 1 := fun x hx ↦
    h.frontier x hx p List.mem_cons_self
  have hgrown := h.grown.fresh (List.mem_append_right _ List.mem_cons_self) hdepth hseen
    (fun e he ↦ (hnext e.1 e.2).mp he)
  refine ⟨by rwa [hlist], fun x hx hexp l c hE ↦ ?_, fun x hx y hy ↦ ?_, fun x hx m hm ↦ ?_⟩
  · rw [hlist]
    rcases List.mem_append.mp hx with hx | hx
    · obtain ⟨y, hy, hnode, hle⟩ := h.closed x hx hexp l c hE
      exact ⟨y, List.mem_append_left _ hy, hnode, hle⟩
    · obtain rfl := List.mem_singleton.mp hx
      rcases @seen_or_fresh α β _ x seen next _ ((hnext c l).mpr hE) with hs | hf
      · obtain ⟨y, hy, hnode⟩ := List.mem_map.mp ((hseen c).mp hs)
        exact ⟨y, List.mem_append_left _ hy, hnode, hdepth y hy⟩
      · obtain ⟨y, hy, hnode⟩ := List.mem_map.mp hf
        exact ⟨y, List.mem_append_right _ hy, hnode, (depth_of_mem_fresh hy).le⟩
  · -- the queue now starts no higher than the entry that left it
    have hqueue : p.depth ≤ y.depth := by
      rcases List.mem_append.mp hy with hy | hy
      · have := (List.pairwise_append.mp h.grown.sorted).2.1
        exact (List.pairwise_cons.mp this).1 y hy
      · rw [depth_of_mem_fresh hy]
        exact Nat.le_succ _
    rw [hlist] at hx
    rcases List.mem_append.mp hx with hx | hx
    · exact (hdepth x hx).trans (Nat.succ_le_succ hqueue)
    · rw [depth_of_mem_fresh hx]
      exact Nat.succ_le_succ hqueue
  · rw [hlist] at hx
    rcases List.mem_append.mp hx with hx | hx
    · exact h.within x hx m hm
    · rw [depth_of_mem_fresh hx] at hm
      rcases Nat.lt_succ_iff_lt_or_eq.mp hm with hm | rfl
      · exact h.within p (List.mem_append_right _ List.mem_cons_self) m hm
      · exact hp

end Search
