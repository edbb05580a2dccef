import Mathlib.Data.List.Induction
import Mathlib.Data.List.Nodup

/-!
# Trails, layer by layer

A trail is a walk that uses no edge twice. Starting from one node and extending every trail of a
layer by every edge that is free and not yet on it gives the next layer; the layers list the trails
by their length, each once when no step offers an edge twice and an edge leads from a node to one
node only.

## Edges of a multigraph

`E` relates a node, an edge and a node, and there may be several edges between two nodes, and edges
from a node to itself. A path is the list of its edges, so two paths over the same nodes are
different paths.

## What the layers are for

A pattern of variable length is matched by extending trails breadth first and keeping those with a
length in the range. `mem_layer` and `nodup_layer` say that this lists every trail of a length, and
lists it once.
-/

namespace Trails

variable {ν ε : Type*} {E : ν → ε → ν → Prop} {a b c : ν} {es fs : List ε}

/-! ## Walks -/

/-- A walk along `E`, by its edges. -/
def Walk (E : ν → ε → ν → Prop) : ν → List ε → ν → Prop
  | a, [], b => a = b
  | a, e :: es, b => ∃ c, E a e c ∧ Walk E c es b

theorem walk_append : Walk E a (es ++ fs) c ↔ ∃ b, Walk E a es b ∧ Walk E b fs c := by
  induction es generalizing a with
  | nil => simp [Walk]
  | cons e es ih =>
    rw [List.cons_append]
    simp only [Walk, ih]
    constructor
    · rintro ⟨d, hd, b, hes, hfs⟩
      exact ⟨b, ⟨d, hd, hes⟩, hfs⟩
    · rintro ⟨b, ⟨d, hd, hes⟩, hfs⟩
      exact ⟨d, hd, b, hes, hfs⟩

theorem walk_singleton {e : ε} : Walk E a [e] b ↔ E a e b := by simp [Walk]

/-- A walk back. -/
theorem walk_reverse : Walk E a es b ↔ Walk (fun x e y ↦ E y e x) b es.reverse a := by
  induction es generalizing a with
  | nil => exact eq_comm
  | cons e es ih =>
    rw [List.reverse_cons, walk_append]
    simp only [walk_singleton]
    constructor
    · rintro ⟨c, h, h'⟩
      exact ⟨c, ih.mp h', h⟩
    · rintro ⟨c, h', h⟩
      exact ⟨c, h, ih.mpr h'⟩

theorem walk_and {Q : ε → Prop} :
    Walk (fun x e y ↦ E x e y ∧ Q e) a es b ↔ Walk E a es b ∧ ∀ e ∈ es, Q e := by
  induction es generalizing a with
  | nil => simp [Walk]
  | cons e es ih =>
    simp only [Walk, ih, List.forall_mem_cons]
    constructor
    · rintro ⟨c, ⟨hE, he⟩, hwalk, hall⟩
      exact ⟨⟨c, hE, hwalk⟩, he, hall⟩
    · rintro ⟨⟨c, hE, hwalk⟩, he, hall⟩
      exact ⟨c, ⟨hE, he⟩, hwalk, hall⟩

/-! ## Reading a walk the other way -/

/-- An edge joins one pair of nodes, in one order or in both. -/
def JoinsOnce (E : ν → ε → ν → Prop) : Prop :=
  ∀ x e y x' y', E x e y → E x' e y' → (x = x' ∧ y = y') ∨ (x = y' ∧ y = x')

theorem eq_of_edge (hE : JoinsOnce E) {e : ε} (he : E a e b ∨ E b e a) (h : E c e b) : c = a := by
  rcases he with he | he
  · rcases hE _ _ _ _ _ h he with ⟨h, -⟩ | ⟨h, h'⟩
    · exact h
    · exact h.trans h'
  · rcases hE _ _ _ _ _ h he with ⟨h, h'⟩ | ⟨h, -⟩
    · exact h.trans h'
    · exact h

/-- A walk over edges that all join its ends can be read the other way. -/
theorem walk_reverse_of_joins (hE : JoinsOnce E) (hjoin : ∀ e ∈ es, E a e b ∨ E b e a) :
    (Walk E a es b → Walk E a es.reverse b) ∧ (Walk E a es a → Walk E b es.reverse b) := by
  induction es using List.reverseRecOn with
  | nil => exact ⟨id, fun _ ↦ rfl⟩
  | append_singleton es e ih =>
    obtain ⟨ih₁, ih₂⟩ := ih fun f hf ↦ hjoin f (List.mem_append_left _ hf)
    have he := hjoin e (by simp)
    rw [walk_append, walk_append, List.reverse_append, List.reverse_singleton,
      List.singleton_append]
    simp only [walk_singleton]
    constructor
    · rintro ⟨c, hwalk, hlast⟩
      obtain rfl := eq_of_edge hE he hlast
      exact ⟨b, hlast, ih₂ hwalk⟩
    · rintro ⟨c, hwalk, hlast⟩
      obtain rfl := eq_of_edge hE he.symm hlast
      exact ⟨a, hlast, ih₁ hwalk⟩

theorem ends_of_edge (hE : JoinsOnce E) (hone : (∀ x e y, E x e y → E y e x → x = y) ∨ a ≠ b)
    {c d : ν} {e : ε} (hlast : E c e b) (hfirst : E a e d) : c = a ∧ d = b := by
  rcases hE _ _ _ _ _ hlast hfirst with ⟨h, h'⟩ | ⟨h, h'⟩
  · exact ⟨h, h'.symm⟩
  · subst h h'
    rcases hone with hone | hne
    · obtain rfl := hone _ _ _ hlast hfirst
      exact ⟨rfl, rfl⟩
    · exact absurd rfl hne

/-- A walk that can be read the other way runs over edges that join its ends, unless it comes back
to where it started over edges that lead both ways. -/
theorem joins_of_walk_reverse (hE : JoinsOnce E)
    (hone : (∀ x e y, E x e y → E y e x → x = y) ∨ a ≠ b) :
    (Walk E a es b → Walk E a es.reverse b → ∀ e ∈ es, E a e b ∨ E b e a) ∧
      (Walk E a es a → Walk E b es.reverse b → ∀ e ∈ es, E a e b ∨ E b e a) := by
  induction es using List.reverseRecOn with
  | nil => simp
  | append_singleton es e ih =>
    rw [walk_append, walk_append, List.reverse_append, List.reverse_singleton,
      List.singleton_append]
    simp only [walk_singleton]
    constructor
    · rintro ⟨c, hwalk, hlast⟩ ⟨d, hfirst, hback⟩
      obtain ⟨rfl, rfl⟩ : c = a ∧ d = b := ends_of_edge hE hone hlast hfirst
      simpa [or_imp, forall_and] using ⟨ih.2 hwalk hback, .inl hlast⟩
    · rintro ⟨c, hwalk, hlast⟩ ⟨d, hfirst, hback⟩
      obtain ⟨rfl, rfl⟩ : c = b ∧ d = a :=
        ends_of_edge hE (hone.imp_right Ne.symm) hlast hfirst
      simpa [or_imp, forall_and] using ⟨ih.1 hwalk hback, .inr hlast⟩

/-! ## Layers -/

variable [DecidableEq ε] (step : ν → List (ν × ε)) (free : ε → Bool)

/-- The ways a path goes on. -/
def extend (path : ν × List ε) : List (ν × List ε) :=
  ((step path.1).filter fun x ↦ free x.2 && !path.2.contains x.2).map fun x ↦
    (x.1, path.2 ++ [x.2])

/-- The paths of a length. -/
def layer (a : ν) : ℕ → List (ν × List ε)
  | 0 => [(a, [])]
  | n + 1 => (layer a n).flatMap (extend step free)

variable {step free}

theorem mem_extend {path : ν × List ε} : (c, fs) ∈ extend step free path ↔
    ∃ e, (c, e) ∈ step path.1 ∧ free e = true ∧ e ∉ path.2 ∧ fs = path.2 ++ [e] := by
  rw [extend, List.mem_map]
  constructor
  · rintro ⟨⟨c', e⟩, hmem, heq⟩
    obtain ⟨rfl, rfl⟩ := Prod.mk.inj heq
    rw [List.mem_filter] at hmem
    obtain ⟨hmem, hfree⟩ := hmem
    simp only [Bool.and_eq_true, Bool.not_eq_true', List.contains_eq_mem,
      decide_eq_false_iff_not] at hfree
    exact ⟨e, hmem, hfree.1, hfree.2, rfl⟩
  · rintro ⟨e, hmem, hfree, hnot, rfl⟩
    exact ⟨(c, e), List.mem_filter.mpr ⟨hmem, by simp [hfree, hnot]⟩, rfl⟩

theorem layer_eq_nil {m n : ℕ} (h : layer step free a m = []) (hmn : m ≤ n) :
    layer step free a n = [] := by
  induction hmn with
  | refl => exact h
  | step _ ih => rw [layer, ih, List.flatMap_nil]

/-- **The paths of a length** are the trails of that length over free edges. -/
theorem mem_layer (hE : ∀ a e b, E a e b ↔ (b, e) ∈ step a) {n : ℕ} :
    (b, es) ∈ layer step free a n ↔
      Walk E a es b ∧ es.Nodup ∧ (∀ e ∈ es, free e = true) ∧ es.length = n := by
  induction n generalizing b es with
  | zero =>
    rw [layer, List.mem_singleton, Prod.mk.injEq]
    constructor
    · rintro ⟨rfl, rfl⟩
      exact ⟨rfl, List.nodup_nil, by simp, rfl⟩
    · rintro ⟨hwalk, -, -, hlen⟩
      obtain rfl := List.length_eq_zero_iff.mp hlen
      exact ⟨(show a = b from hwalk).symm, rfl⟩
  | succ n ih =>
    rw [layer, List.mem_flatMap]
    constructor
    · rintro ⟨⟨c, fs⟩, hlayer, hext⟩
      obtain ⟨e, hmem, hfree, hnot, rfl⟩ := mem_extend.mp hext
      obtain ⟨hwalk, hnodup, hall, rfl⟩ := ih.mp hlayer
      refine ⟨walk_append.mpr ⟨c, hwalk, walk_singleton.mpr ((hE ..).mpr hmem)⟩, ?_, ?_, by simp⟩
      · rw [List.nodup_append]
        refine ⟨hnodup, List.nodup_singleton e, fun x hx y hy ↦ ?_⟩
        obtain rfl := List.mem_singleton.mp hy
        exact ne_of_mem_of_not_mem hx hnot
      · simpa [or_imp, forall_and] using ⟨hall, hfree⟩
    · rintro ⟨hwalk, hnodup, hall, hlen⟩
      obtain ⟨fs, e, rfl⟩ := List.eq_nil_or_concat' es |>.resolve_left (by rintro rfl; simp at hlen)
      obtain ⟨c, hwalk, hlast⟩ := walk_append.mp hwalk
      rw [List.nodup_append] at hnodup
      refine ⟨(c, fs), ih.mpr ⟨hwalk, hnodup.1, fun x hx ↦ hall x (by simp [hx]), ?_⟩, ?_⟩
      · simpa using hlen
      · exact mem_extend.mpr ⟨e, (hE ..).mp (walk_singleton.mp hlast), hall e (by simp),
          fun h ↦ hnodup.2.2 e h e (by simp) rfl, rfl⟩

/-- No two paths of a length have the same edges. -/
theorem nodup_layer (hstep : ∀ a, ((step a).map Prod.snd).Nodup) (n : ℕ) :
    ((layer step free a n).map Prod.snd).Nodup := by
  induction n with
  | zero => exact List.nodup_singleton _
  | succ n ih =>
    rw [layer, List.map_flatMap, List.nodup_flatMap]
    constructor
    · rintro ⟨c, fs⟩ -
      rw [extend, List.map_map]
      have hsub := ((hstep c).sublist ((List.filter_sublist (p := fun x ↦
        free x.2 && !fs.contains x.2)).map Prod.snd))
      have := hsub.map (f := fun e ↦ fs ++ [e]) fun e e' h ↦ by simpa using h
      rwa [List.map_map] at this
    · -- the edges of the longer path give those of the shorter one
      refine (List.pairwise_map.mp ih).imp_of_mem fun {p q} hp hq hne ↦ ?_
      refine List.disjoint_left.mpr fun t ht ht' ↦ hne ?_
      obtain ⟨⟨c, fs⟩, hfs, rfl⟩ := List.mem_map.mp ht
      obtain ⟨⟨c', fs'⟩, hfs', heq⟩ := List.mem_map.mp ht'
      obtain ⟨e, -, -, -, rfl⟩ := mem_extend.mp hfs
      obtain ⟨e', -, -, -, rfl⟩ := mem_extend.mp hfs'
      exact ((List.append_inj' heq rfl).1).symm

end Trails
