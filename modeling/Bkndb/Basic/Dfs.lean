import Bkndb.Basic.Except
import Mathlib.Data.List.Nodup

/-!
# Depth-first search with a stack

A loop that takes a frame from a stack, and either pushes the frames below it or deals with it as a
leaf. However the stack is used on the way, the leaves come in the order of a walk through the tree
of frames, each subtree before the next: with enough fuel the loop is a `for` loop over the leaves,
which may stop early.

## The tree is never built

The loop of a search works on frames and produces its leaves by side effect. `Outcome` says what
one turn of the loop does with a frame, `Walks` that the frames below a frame are those of a tree
of known depth, and `leaves` collects what the loop would reach. A proof about a search then has
three parts that do not know of each other: what a turn does, what the leaves are, and this module,
which turns the loop into a `for` loop over them.

## Stopping early

A body may stop the loop. `forUntil` returns a flag with the state, and the laws for it are those
of a monad with an early exit: what comes after a stopped loop is not run (`goOn`). A limit on the
number of results is such a body.
-/

universe u

namespace Dfs

variable {α β σ ε : Type u}

/-! ## Loops that may stop -/

/-- A `for` loop. The flag tells that the body stopped it. -/
def forUntil (body : σ → α → Except ε (σ × Bool)) : List α → σ → Except ε (σ × Bool)
  | [], s => .ok (s, false)
  | a :: as, s => do
    let (s, stop) ← body s a
    if stop then return (s, true) else forUntil body as s

/-- What comes after a loop, unless it was stopped. -/
def goOn (next : σ → Except ε (σ × Bool)) : σ × Bool → Except ε (σ × Bool)
  | (s, true) => .ok (s, true)
  | (s, false) => next s

variable {body : σ → α → Except ε (σ × Bool)}

theorem forUntil_cons (a : α) (as : List α) (s : σ) :
    forUntil body (a :: as) s = body s a >>= goOn (forUntil body as) := by
  rw [forUntil]
  refine congrArg (body s a >>= ·) (funext fun x ↦ ?_)
  obtain ⟨s, stop⟩ := x
  cases stop <;> rfl

theorem goOn_bind (next after : σ → Except ε (σ × Bool)) (x : Except ε (σ × Bool)) :
    x >>= goOn next >>= goOn after = x >>= goOn fun s ↦ next s >>= goOn after := by
  rcases x with e | ⟨s, _ | _⟩ <;> rfl

theorem bind_goOn_ok (x : Except ε (σ × Bool)) : x >>= goOn (fun s ↦ .ok (s, false)) = x := by
  rcases x with e | ⟨s, _ | _⟩ <;> rfl

theorem forUntil_append (as bs : List α) (s : σ) :
    forUntil body (as ++ bs) s = forUntil body as s >>= goOn (forUntil body bs) := by
  induction as generalizing s with
  | nil => rfl
  | cons a as ih =>
    rw [List.cons_append, forUntil_cons, forUntil_cons, goOn_bind]
    exact congrArg (fun next ↦ body s a >>= goOn next) (funext ih)

/-- A loop whose body is a loop is one loop. -/
theorem forUntil_flatMap (f : β → List α) (l : List β) (s : σ) :
    forUntil body (l.flatMap f) s = forUntil (fun s b ↦ forUntil body (f b) s) l s := by
  induction l generalizing s with
  | nil => rfl
  | cons b l ih =>
    rw [List.flatMap_cons, forUntil_append, forUntil_cons]
    exact congrArg (fun next ↦ forUntil body (f b) s >>= goOn next) (funext ih)

theorem forUntil_congr {body' : σ → α → Except ε (σ × Bool)} {l : List α}
    (h : ∀ a ∈ l, ∀ s, body s a = body' s a) (s : σ) : forUntil body l s = forUntil body' l s := by
  induction l generalizing s with
  | nil => rfl
  | cons a l ih =>
    rw [forUntil_cons, forUntil_cons, h a List.mem_cons_self]
    exact congrArg (fun next ↦ body' s a >>= goOn next)
      (funext (ih fun b hb ↦ h b (List.mem_cons_of_mem _ hb)))

theorem forUntil_map (f : β → α) (l : List β) (s : σ) :
    forUntil body (l.map f) s = forUntil (fun s b ↦ body s (f b)) l s := by
  induction l generalizing s with
  | nil => rfl
  | cons b l ih =>
    rw [List.map_cons, forUntil_cons, forUntil_cons]
    exact congrArg (fun next ↦ body s (f b) >>= goOn next) (funext ih)

theorem forUntil_filter (p : α → Bool) (l : List α) (s : σ) :
    forUntil body (l.filter p) s =
      forUntil (fun s a ↦ if p a then body s a else .ok (s, false)) l s := by
  induction l generalizing s with
  | nil => rfl
  | cons a l ih =>
    rw [forUntil_cons]
    by_cases h : p a
    · rw [List.filter_cons_of_pos h, forUntil_cons, if_pos h]
      exact congrArg (fun next ↦ body s a >>= goOn next) (funext ih)
    · rw [List.filter_cons_of_neg h, if_neg h]
      exact ih s

/-! ## The loop with a stack -/

/-- What becomes of a frame. -/
inductive Outcome (α σ : Type u) where
  /-- Frames are pushed, the last of them on top. -/
  | push (frames : List α)
  /-- It was a leaf. -/
  | next (s : σ)
  /-- It was a leaf, and the last to be looked at. -/
  | stop (s : σ)

/-- The outcome of a leaf. -/
def Outcome.ofLeaf : σ × Bool → Outcome α σ
  | (s, true) => .stop s
  | (s, false) => .next s

/-- Take frames from a stack until it is empty, with a bound on the iterations. -/
def loop (visit : σ → α → Except ε (Outcome α σ)) : ℕ → List α → σ → Except ε (σ × Bool)
  | 0, _, s => .ok (s, false)
  | _ + 1, [], s => .ok (s, false)
  | fuel + 1, a :: stack, s => do
    match ← visit s a with
    | .push frames => loop visit fuel (frames.reverse ++ stack) s
    | .next s => loop visit fuel stack s
    | .stop s => return (s, true)

/-- The leaves `n` levels below a frame, in order. -/
def leaves (children : α → List α) : ℕ → α → List α
  | 0, a => [a]
  | n + 1, a => (children a).flatMap (leaves children n)

variable {visit : σ → α → Except ε (Outcome α σ)} {children : α → List α} {P : ℕ → α → Prop}

/-- A loop walks through a tree: `P n` holds of the frames `n` levels above the leaves. -/
structure Walks (visit : σ → α → Except ε (Outcome α σ)) (children : α → List α)
    (body : σ → α → Except ε (σ × Bool)) (P : ℕ → α → Prop) : Prop where
  inner : ∀ n a s, P (n + 1) a → visit s a = .ok (.push (children a).reverse)
  child : ∀ n a, P (n + 1) a → ∀ c ∈ children a, P n c
  leaf : ∀ a s, P 0 a → visit s a = (body s a).map .ofLeaf

theorem loop_leaf {a : α} {s : σ} {x : Except ε (σ × Bool)} (h : visit s a = x.map .ofLeaf)
    (fuel : ℕ) (stack : List α) :
    loop visit (fuel + 1) (a :: stack) s = x >>= goOn (loop visit fuel stack) := by
  rw [loop, h]
  rcases x with e | ⟨s, _ | _⟩ <;> rfl

theorem loop_append {as : List α} {f : α → List α}
    (h : ∀ a ∈ as, ∃ k, ∀ fuel stack s, loop visit (fuel + k) (a :: stack) s =
      forUntil body (f a) s >>= goOn (loop visit fuel stack)) :
    ∃ k, ∀ fuel stack s, loop visit (fuel + k) (as ++ stack) s =
      forUntil body (as.flatMap f) s >>= goOn (loop visit fuel stack) := by
  induction as with
  | nil => exact ⟨0, fun fuel stack s ↦ rfl⟩
  | cons a as ih =>
    obtain ⟨k, hk⟩ := h a List.mem_cons_self
    obtain ⟨k', hk'⟩ := ih fun b hb ↦ h b (List.mem_cons_of_mem _ hb)
    refine ⟨k' + k, fun fuel stack s ↦ ?_⟩
    rw [List.cons_append, ← Nat.add_assoc, hk, List.flatMap_cons, forUntil_append, goOn_bind]
    exact congrArg (fun next ↦ forUntil body (f a) s >>= goOn next) (funext (hk' fuel stack))

/-- **A frame is dealt with by dealing with its leaves.** -/
theorem Walks.loop_cons (h : Walks visit children body P) {n : ℕ} {a : α} (ha : P n a) :
    ∃ k, ∀ fuel stack s, loop visit (fuel + k) (a :: stack) s =
      forUntil body (leaves children n a) s >>= goOn (loop visit fuel stack) := by
  induction n generalizing a with
  | zero =>
    refine ⟨1, fun fuel stack s ↦ ?_⟩
    rw [loop_leaf (h.leaf a s ha), leaves, forUntil_cons, goOn_bind]
    rfl
  | succ n ih =>
    obtain ⟨k, hk⟩ := loop_append fun c hc ↦ ih (h.child n a ha c hc)
    refine ⟨k + 1, fun fuel stack s ↦ ?_⟩
    rw [← Nat.add_assoc, loop, h.inner n a s ha]
    simp only [Except.ok_bind, List.reverse_reverse]
    exact hk fuel stack s

/-- **The loop is a loop over the leaves**, with enough fuel. -/
theorem Walks.loop_singleton (h : Walks visit children body P) {n : ℕ} {a : α} (ha : P n a) :
    ∃ k, ∀ fuel, k ≤ fuel → ∀ s, loop visit fuel [a] s = forUntil body (leaves children n a) s := by
  obtain ⟨k, hk⟩ := h.loop_cons ha
  refine ⟨k, fun fuel hfuel s ↦ ?_⟩
  obtain ⟨more, rfl⟩ := Nat.exists_eq_add_of_le' hfuel
  rw [hk]
  have hend : loop visit more [] = fun s ↦ .ok (s, false) := by
    funext s
    cases more <;> rfl
  rw [hend, bind_goOn_ok]

theorem exists_fuel {Q : β → ℕ → Prop} {l : List β}
    (h : ∀ b ∈ l, ∃ k, ∀ fuel, k ≤ fuel → Q b fuel) : ∃ k, ∀ b ∈ l, ∀ fuel, k ≤ fuel → Q b fuel := by
  induction l with
  | nil => exact ⟨0, fun b hb ↦ by cases hb⟩
  | cons b l ih =>
    obtain ⟨k, hk⟩ := h b List.mem_cons_self
    obtain ⟨k', hk'⟩ := ih fun b hb ↦ h b (List.mem_cons_of_mem _ hb)
    refine ⟨max k k', List.forall_mem_cons.mpr ⟨fun fuel hfuel ↦ ?_, fun b hb fuel hfuel ↦ ?_⟩⟩
    · exact hk fuel (Nat.le_trans (Nat.le_max_left k k') hfuel)
    · exact hk' b hb fuel (Nat.le_trans (Nat.le_max_right k k') hfuel)

/-! ## The leaves -/

theorem leaves_of (hchild : ∀ n a, P (n + 1) a → ∀ c ∈ children a, P n c) {n : ℕ} {a b : α}
    (ha : P n a) (hb : b ∈ leaves children n a) : P 0 b := by
  induction n generalizing a with
  | zero =>
    obtain rfl := List.mem_singleton.mp hb
    exact ha
  | succ n ih =>
    obtain ⟨c, hc, hb⟩ := List.mem_flatMap.mp hb
    exact ih (hchild n a ha c hc) hb

/-- A way down through the tree leads to a leaf. -/
theorem mem_leaves {n : ℕ} (way : ℕ → α) (h : ∀ i < n, way (i + 1) ∈ children (way i)) :
    way n ∈ leaves children n (way 0) := by
  induction n generalizing way with
  | zero => exact List.mem_singleton_self _
  | succ n ih =>
    exact List.mem_flatMap.mpr ⟨way 1, h 0 (Nat.succ_pos n),
      ih (fun i ↦ way (i + 1)) fun i hi ↦ h (i + 1) (Nat.succ_lt_succ hi)⟩

/-- When each frame extends the trace of the one above by one entry, its own, no two leaves have one
trace. -/
theorem nodup_leaves {κ : Type*} {trace : α → List κ}
    (hchild : ∀ n a, P (n + 1) a → ∀ c ∈ children a, P n c)
    (htrace : ∀ n a, P (n + 1) a → ∀ c ∈ children a, ∃ x, trace c = trace a ++ [x])
    (hnodup : ∀ n a, P (n + 1) a → ((children a).map trace).Nodup) {n : ℕ} {a : α} (ha : P n a) :
    ((leaves children n a).map trace).Nodup ∧
      ∀ b ∈ leaves children n a, trace a <+: trace b := by
  induction n generalizing a with
  | zero =>
    refine ⟨List.nodup_singleton _, fun b hb ↦ ?_⟩
    obtain rfl := List.mem_singleton.mp hb
    exact List.prefix_rfl
  | succ n ih =>
    have hbelow : ∀ c ∈ children a, _ := fun c hc ↦ ih (hchild n a ha c hc)
    constructor
    · rw [leaves, List.map_flatMap, List.nodup_flatMap]
      refine ⟨fun c hc ↦ (hbelow c hc).1, ?_⟩
      have hne : (children a).Pairwise fun c c' ↦ trace c ≠ trace c' :=
        List.pairwise_map.mp (hnodup n a ha)
      refine (hne.imp_of_mem fun {c c'} hc hc' hne ↦ ?_)
      -- two traces of one length that start one trace are equal
      refine List.disjoint_left.mpr fun t ht ht' ↦ hne ?_
      obtain ⟨b, hb, rfl⟩ := List.mem_map.mp ht
      obtain ⟨b', hb', heq⟩ := List.mem_map.mp ht'
      obtain ⟨x, hx⟩ := htrace n a ha c hc
      obtain ⟨x', hx'⟩ := htrace n a ha c' hc'
      have hpre := (hbelow c hc).2 b hb
      have hpre' := (hbelow c' hc').2 b' hb'
      rw [heq] at hpre'
      exact (List.prefix_of_prefix_length_le hpre hpre' (by simp [hx, hx'])).eq_of_length
        (by simp [hx, hx'])
    · intro b hb
      obtain ⟨c, hc, hb⟩ := List.mem_flatMap.mp hb
      obtain ⟨x, hx⟩ := htrace n a ha c hc
      exact (hx ▸ List.prefix_append (trace a) [x]).trans ((hbelow c hc).2 b hb)

end Dfs
