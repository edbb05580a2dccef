import Mathlib.Logic.Relation
import Bkndb.Graph.Traversal

/-!
# Call trees

The nested view of a traversal (`graph/traversal/builder.rs`): the nodes grouped by their parents. A
node is in the forest if its parents are in the list, up to one without a parent. A label filter can
hide a parent, and then the nodes below it are lost.

## Recursion

`build` follows the list of the result, not the graph: the nodes below a node are those that name
it as their parent. Parents are found one level up, so the recursion goes no deeper than the list
is long, and the fuel that stands for an endless recursion is never used up.

## Main results

* `complete_iff`: over a list in layers, the forest has every node of the list exactly once, with
  its edge, exactly when the parents named in it are in it.
* `toTree_complete_iff`: so it is for the result of every traversal, and without a filter no parent
  is hidden (`parentsShown_of_traverseIn`).
-/

/-- A node with the nodes found from it. -/
inductive CallTreeNode where
  | mk (node : NodeId) (viaEdge : Option EdgeId) (children : List CallTreeNode)

namespace CallTreeNode

mutual

/-- The nodes of a tree with their edges, from the top. -/
def entries : CallTreeNode → List (NodeId × Option EdgeId)
  | mk node viaEdge children => (node, viaEdge) :: forestEntries children

/-- The nodes of a list of trees with their edges. -/
def forestEntries : List CallTreeNode → List (NodeId × Option EdgeId)
  | [] => []
  | tree :: forest => tree.entries ++ forestEntries forest

end

theorem forestEntries_eq_flatMap (forest : List CallTreeNode) :
    forestEntries forest = forest.flatMap entries := by
  induction forest with
  | nil => rw [forestEntries, List.flatMap_nil]
  | cons tree forest ih => rw [forestEntries, ih, List.flatMap_cons]

end CallTreeNode

namespace Graph

open CallTreeNode

/-! ## The nested view -/

/-- The nodes found from a parent, in the order of the list. -/
def childrenOf (nodes : List TraversedNode) (parent : Option NodeId) : List TraversedNode :=
  nodes.filter fun n ↦ n.parent = parent

/-- The tree below a node. A recursion deeper than the list is long never ends. -/
def build (nodes : List TraversedNode) : ℕ → TraversedNode → Except BknError CallTreeNode
  | 0, _ => .error (.panic "stack overflow")
  | depth + 1, n => do
    return .mk n.node n.viaEdge (← (childrenOf nodes (some n.node)).mapM (build nodes depth))

/-- The forest of the nodes without a parent. -/
def toTree (nodes : List TraversedNode) : Except BknError (List CallTreeNode) :=
  (childrenOf nodes none).mapM (build nodes nodes.length)

/-- The forest has every node of the list exactly once, with its edge. -/
def Complete (nodes : List TraversedNode) (forest : List CallTreeNode) : Prop :=
  ∀ x ∈ nodes, (x.node, x.viaEdge) ∈ forestEntries forest ∧
    ((forestEntries forest).map Prod.fst).count x.node = 1

/-- The parents named in the list are nodes of the list. -/
def ParentsShown (nodes : List TraversedNode) : Prop :=
  ∀ x ∈ nodes, ∀ p, x.parent = some p → ∃ y ∈ nodes, y.node = p

/-! ## Parents in the list -/

/-- `y` is the parent of `x` in the list. -/
def Up (nodes : List TraversedNode) (x y : TraversedNode) : Prop :=
  x ∈ nodes ∧ y ∈ nodes ∧ x.parent = some y.node

/-- A list in which no node is found twice and parents are found one level up. -/
structure Layered (nodes : List TraversedNode) : Prop where
  nodup : (nodes.map TraversedNode.node).Nodup
  depth : ∀ x y, Up nodes x y → y.depth < x.depth

open Relation

variable {nodes : List TraversedNode} {x y z : TraversedNode}

theorem mem_childrenOf {parent : Option NodeId} :
    x ∈ childrenOf nodes parent ↔ x ∈ nodes ∧ x.parent = parent := by
  simp [childrenOf]

namespace Layered

theorem inj (h : Layered nodes) (hx : x ∈ nodes) (hy : y ∈ nodes) (hnode : x.node = y.node) :
    x = y :=
  List.inj_on_of_nodup_map h.nodup hx hy hnode

/-- A node has one parent. -/
theorem rightUnique (h : Layered nodes) : Relator.RightUnique (Up nodes) := by
  rintro x y z ⟨-, hy, hxy⟩ ⟨-, hz, hxz⟩
  exact h.inj hy hz (Option.some.inj (hxy.symm.trans hxz))

theorem depth_le (h : Layered nodes) (hxy : ReflTransGen (Up nodes) x y) : y.depth ≤ x.depth := by
  induction hxy with
  | refl => exact le_rfl
  | tail _ hup ih => exact (h.depth _ _ hup).le.trans ih

theorem build_isOk (h : Layered nodes) {fuel : ℕ} (hx : x ∈ nodes)
    (hfuel : (nodes.filter fun y ↦ x.depth < y.depth).length < fuel) :
    ∃ tree, build nodes fuel x = .ok tree := by
  induction fuel generalizing x with
  | zero => exact absurd hfuel (Nat.not_lt_zero _)
  | succ fuel ih =>
    obtain ⟨children, hchildren, -⟩ := Except.mapM_exists
      (l := childrenOf nodes (some x.node)) (f := build nodes fuel) (Q := fun _ _ ↦ True) (by
        intro y hy
        obtain ⟨hmem, hparent⟩ := mem_childrenOf.mp hy
        have hlt := h.depth y x ⟨hmem, hx, hparent⟩
        obtain ⟨tree, htree⟩ := ih hmem (by
          -- `y` is deeper than `x` and no deeper than itself
          have hsub : (nodes.filter fun z ↦ y.depth < z.depth).Sublist
              (nodes.filter fun z ↦ x.depth < z.depth) := by
            refine List.monotone_filter_right nodes fun z hz ↦ ?_
            simp only [decide_eq_true_eq] at hz ⊢
            exact hlt.trans hz
          refine lt_of_lt_of_le (lt_of_le_of_ne hsub.length_le fun hlen ↦ ?_)
            (Nat.lt_succ_iff.mp hfuel)
          have hyin : y ∈ nodes.filter fun z ↦ x.depth < z.depth := by
            simp [hmem, hlt]
          rw [← hsub.eq_of_length hlen] at hyin
          simp at hyin)
        exact ⟨tree, htree, trivial⟩)
    rw [build, hchildren, Except.ok_bind]
    exact ⟨_, rfl⟩

theorem toTree_isOk (h : Layered nodes) : ∃ forest, toTree nodes = .ok forest := by
  obtain ⟨forest, hforest, -⟩ := Except.mapM_exists (l := childrenOf nodes none)
    (f := build nodes nodes.length) (Q := fun _ _ ↦ True) (by
      intro x hx
      obtain ⟨hmem, -⟩ := mem_childrenOf.mp hx
      have hlt : (nodes.filter fun y ↦ x.depth < y.depth).length < nodes.length := by
        refine lt_of_le_of_ne (List.length_filter_le _ _) fun hlen ↦ ?_
        have := List.length_filter_eq_length_iff.mp hlen x hmem
        simp at this
      obtain ⟨tree, htree⟩ := h.build_isOk hmem hlt
      exact ⟨tree, htree, trivial⟩)
  exact ⟨forest, hforest⟩

end Layered

/-! ## What the trees hold -/

/-- The nodes below `x` in the list. -/
def Below (nodes : List TraversedNode) (x : TraversedNode) (entry : NodeId × Option EdgeId) : Prop :=
  ∃ y ∈ nodes, ReflTransGen (Up nodes) y x ∧ entry = (y.node, y.viaEdge)

/-- The trees of a list of nodes, each with what is below its node. -/
theorem mem_forestEntries {roots : List TraversedNode} {forest : List CallTreeNode} {fuel : ℕ}
    (hforest : roots.mapM (build nodes fuel) = .ok forest)
    (hbuild : ∀ x ∈ roots, ∀ tree, build nodes fuel x = .ok tree →
      ∀ entry, entry ∈ tree.entries ↔ Below nodes x entry) (entry : NodeId × Option EdgeId) :
    entry ∈ forestEntries forest ↔ ∃ x ∈ roots, Below nodes x entry := by
  have hR := Except.mapM_eq_ok_iff.mp hforest
  rw [forestEntries_eq_flatMap, List.mem_flatMap]
  constructor
  · rintro ⟨tree, htree, hmem⟩
    obtain ⟨x, hx, heq⟩ := hR.exists_left htree
    exact ⟨x, hx, (hbuild x hx tree heq entry).mp hmem⟩
  · rintro ⟨x, hx, hbelow⟩
    obtain ⟨tree, htree, heq⟩ := hR.exists_right hx
    exact ⟨tree, htree, (hbuild x hx tree heq entry).mpr hbelow⟩

theorem mem_entries_build {fuel : ℕ} (hx : x ∈ nodes) {tree : CallTreeNode}
    (h : build nodes fuel x = .ok tree) (entry : NodeId × Option EdgeId) :
    entry ∈ tree.entries ↔ Below nodes x entry := by
  induction fuel generalizing x tree entry with
  | zero => cases h
  | succ fuel ih =>
    obtain ⟨children, hchildren, heq⟩ := Except.bind_eq_ok.mp h
    obtain rfl := Except.ok.inj heq
    rw [entries, List.mem_cons, mem_forestEntries hchildren fun y hy tree htree ↦
      ih (mem_childrenOf.mp hy).1 htree]
    constructor
    · rintro (rfl | ⟨y, hy, z, hz, hzy, rfl⟩)
      · exact ⟨x, hx, .refl, rfl⟩
      · obtain ⟨hmem, hparent⟩ := mem_childrenOf.mp hy
        exact ⟨z, hz, hzy.tail ⟨hmem, hx, hparent⟩, rfl⟩
    · rintro ⟨z, hz, hzx, rfl⟩
      rcases ReflTransGen.cases_tail hzx with rfl | ⟨y, hzy, hy, -, hparent⟩
      · exact .inl rfl
      · exact .inr ⟨y, mem_childrenOf.mpr ⟨hy, hparent⟩, z, hz, hzy, rfl⟩

/-- The forest holds the nodes below those without a parent. -/
theorem mem_toTree {forest : List CallTreeNode} (h : toTree nodes = .ok forest)
    (entry : NodeId × Option EdgeId) :
    entry ∈ forestEntries forest ↔ ∃ x ∈ childrenOf nodes none, Below nodes x entry :=
  mem_forestEntries h (fun _ hx _ ↦ mem_entries_build (mem_childrenOf.mp hx).1) entry

namespace Layered

/-- The trees of nodes that are not below each other have no node in common. -/
theorem nodup_forestEntries (h : Layered nodes) {roots : List TraversedNode}
    {forest : List CallTreeNode} {fuel : ℕ} (hsub : roots.Sublist nodes)
    (happart : ∀ x ∈ roots, ∀ y ∈ roots, ReflTransGen (Up nodes) x y → x = y)
    (hforest : roots.mapM (build nodes fuel) = .ok forest)
    (hbuild : ∀ x ∈ roots, ∀ tree, build nodes fuel x = .ok tree →
      (tree.entries.map Prod.fst).Nodup) : ((forestEntries forest).map Prod.fst).Nodup := by
  have hR := Except.mapM_eq_ok_iff.mp hforest
  rw [forestEntries_eq_flatMap, List.map_flatMap, List.nodup_flatMap]
  refine ⟨fun tree htree ↦ ?_, ?_⟩
  · obtain ⟨x, hx, heq⟩ := hR.exists_left htree
    exact hbuild x hx tree heq
  · have hnodup : roots.Nodup := (h.nodup.sublist (hsub.map _)).of_map _
    have hpair : roots.Pairwise fun x y ↦ x ≠ y ∧ x ∈ roots ∧ y ∈ roots :=
      hnodup.imp_of_mem fun hx hy hne ↦ ⟨hne, hx, hy⟩
    refine hR.pairwise_right hpair ?_
    rintro x y t u ht hu ⟨hne, hx, hy⟩ n hnt hnu
    obtain ⟨e, he, rfl⟩ := List.mem_map.mp hnt
    obtain ⟨e', he', heq⟩ := List.mem_map.mp hnu
    obtain ⟨z, hz, hzx, rfl⟩ := (mem_entries_build (hsub.subset hx) ht e).mp he
    obtain ⟨z', hz', hzy, rfl⟩ := (mem_entries_build (hsub.subset hy) hu e').mp he'
    obtain rfl := h.inj hz' hz heq
    rcases hzx.total_of_right_unique h.rightUnique hzy with hxy | hyx
    · exact hne (happart x hx y hy hxy)
    · exact hne (happart y hy x hx hyx).symm

theorem nodup_entries_build (h : Layered nodes) {fuel : ℕ} (hx : x ∈ nodes) {tree : CallTreeNode}
    (hbuild : build nodes fuel x = .ok tree) : (tree.entries.map Prod.fst).Nodup := by
  induction fuel generalizing x tree with
  | zero => cases hbuild
  | succ fuel ih =>
    obtain ⟨children, hchildren, heq⟩ := Except.bind_eq_ok.mp hbuild
    obtain rfl := Except.ok.inj heq
    have hup : ∀ y ∈ childrenOf nodes (some x.node), Up nodes y x := fun y hy ↦ by
      obtain ⟨hmem, hparent⟩ := mem_childrenOf.mp hy
      exact ⟨hmem, hx, hparent⟩
    rw [entries, List.map_cons, List.nodup_cons]
    refine ⟨fun hmem ↦ ?_, h.nodup_forestEntries List.filter_sublist (fun y hy z hz hyz ↦ ?_)
      hchildren fun y hy t ht ↦ ih (hup y hy).1 ht⟩
    · obtain ⟨e, he, hnode⟩ := List.mem_map.mp hmem
      obtain ⟨y, hy, z, hz, hzy, rfl⟩ := (mem_forestEntries hchildren
        (fun y hy tree htree ↦ mem_entries_build (hup y hy).1 htree) e).mp he
      obtain rfl := h.inj hz hx hnode
      exact absurd (h.depth_le hzy) (not_le.mpr (h.depth _ _ (hup y hy)))
    · -- below a sibling is below the parent, which is higher than the sibling
      rcases ReflTransGen.cases_head hyz with heq | ⟨w, hyw, hwz⟩
      · exact heq
      · obtain rfl := h.rightUnique hyw (hup y hy)
        exact absurd (h.depth_le hwz) (not_le.mpr (h.depth _ _ (hup z hz)))

theorem complete_iff (h : Layered nodes) {forest : List CallTreeNode}
    (hforest : toTree nodes = .ok forest) : Complete nodes forest ↔ ParentsShown nodes := by
  have hroot : ∀ x y, x ∈ childrenOf nodes none → ReflTransGen (Up nodes) x y → x = y := by
    intro x y hx hxy
    rcases ReflTransGen.cases_head hxy with heq | ⟨z, ⟨-, -, hparent⟩, -⟩
    · exact heq
    · rw [(mem_childrenOf.mp hx).2] at hparent
      cases hparent
  constructor
  · intro hcomplete x hx p hp
    obtain ⟨r, hr, y, hy, hyr, heq⟩ := (mem_toTree hforest _).mp (hcomplete x hx).1
    obtain rfl := h.inj hx hy (Prod.mk.inj heq).1
    rcases ReflTransGen.cases_head hyr with rfl | ⟨z, ⟨-, hz, hparent⟩, -⟩
    · rw [(mem_childrenOf.mp hr).2] at hp
      cases hp
    · exact ⟨z, hz, Option.some.inj (hparent.symm.trans hp)⟩
  · intro hshown x hx
    -- going up from a node ends at one without a parent
    have hclimb : ∀ d, ∀ x ∈ nodes, x.depth = d →
        ∃ r ∈ childrenOf nodes none, ReflTransGen (Up nodes) x r := by
      intro d
      induction d using Nat.strong_induction_on with
      | _ d ih =>
        rintro x hx rfl
        cases hparent : x.parent with
        | none => exact ⟨x, mem_childrenOf.mpr ⟨hx, hparent⟩, .refl⟩
        | some p =>
          obtain ⟨y, hy, rfl⟩ := hshown x hx p hparent
          have hup : Up nodes x y := ⟨hx, hy, hparent⟩
          obtain ⟨r, hr, hyr⟩ := ih y.depth (h.depth x y hup) y hy rfl
          exact ⟨r, hr, hyr.head hup⟩
    obtain ⟨r, hr, hxr⟩ := hclimb _ x hx rfl
    have hmem : (x.node, x.viaEdge) ∈ forestEntries forest :=
      (mem_toTree hforest _).mpr ⟨r, hr, x, hx, hxr, rfl⟩
    refine ⟨hmem, List.count_eq_one_of_mem ?_ (List.mem_map_of_mem hmem)⟩
    exact h.nodup_forestEntries List.filter_sublist (fun x hx y _ hxy ↦ hroot x y hx hxy) hforest
      fun x hx t ht ↦ h.nodup_entries_build (mem_childrenOf.mp hx).1 ht

end Layered

end Graph

namespace GraphStore

open Graph Search

variable {s : GraphStore} {start : NodeId} {direction : Direction}
  {edgeTypes : Option (List String)} {filterLabel : Option String} {maxDepth : ℕ}
  {nodes : List TraversedNode}

/-- The result of a traversal, whatever the store holds. -/
theorem layered_of_traverseIn
    (h : s.traverseIn start direction edgeTypes filterLabel maxDepth = .ok nodes) :
    Layered nodes := by
  obtain ⟨found, hsearch, rfl⟩ := traverseIn_searched h
  have hgrown := hsearch.grown
  rw [List.append_nil] at hgrown
  refine ⟨?_, ?_⟩
  · rw [shown, List.map_map]
    exact hgrown.nodup.sublist (List.filter_sublist.map _)
  · rintro _ _ ⟨hx, hy, hparent⟩
    obtain ⟨x, hxf, rfl⟩ := List.mem_map.mp hx
    obtain ⟨y, hyf, rfl⟩ := List.mem_map.mp hy
    replace hx := (List.mem_filter.mp hxf).1
    replace hy := (List.mem_filter.mp hyf).1
    rcases hgrown.origin hx with rfl | ⟨p, hp, e, hchild, -, -⟩
    · cases hparent
    · rw [hchild] at hparent ⊢
      obtain rfl := hgrown.inj hp hy (Option.some.inj hparent)
      exact Nat.lt_succ_self _

/-- **`to_tree` of a traversal.** The recursion ends, and the forest has every node of the list
exactly once if and only if no parent named in the list was hidden by the filter. -/
theorem toTree_complete_iff
    (h : s.traverseIn start direction edgeTypes filterLabel maxDepth = .ok nodes) :
    ∃ forest, toTree nodes = .ok forest ∧ (Complete nodes forest ↔ ParentsShown nodes) := by
  have hlayered := layered_of_traverseIn h
  obtain ⟨forest, hforest⟩ := hlayered.toTree_isOk
  exact ⟨forest, hforest, hlayered.complete_iff hforest⟩

/-- Without a filter no parent is hidden. -/
theorem parentsShown_of_traverseIn
    (h : s.traverseIn start direction edgeTypes none maxDepth = .ok nodes) :
    ParentsShown nodes := by
  obtain ⟨found, hsearch, rfl⟩ := traverseIn_searched h
  have hgrown := hsearch.grown
  rw [List.append_nil] at hgrown
  have hshown : s.shown none found = found.map toTraversed := by
    simp [shown, matchesLabel]
  rw [hshown]
  intro y hy p hp
  obtain ⟨x, hx, rfl⟩ := List.mem_map.mp hy
  rcases hgrown.origin hx with rfl | ⟨q, hq, e, hchild, -, -⟩
  · cases hp
  · rw [hchild] at hp
    exact ⟨_, List.mem_map_of_mem hq, Option.some.inj hp⟩

/-- A company with an employee. -/
def staff : GraphStore :=
  (GraphRun.run [[.createNode "Company" ∅, .createNode "Person" ∅],
    [.createEdge ⟨1⟩ "EMPLOYS" ⟨2⟩ ∅]]).store

/-- The company and its employee. -/
theorem toTree_complete_iff_staff : ∃ forest, toTree [⟨⟨1⟩, 0, none, none⟩,
    ⟨⟨2⟩, 1, some ⟨1⟩, some ⟨1⟩⟩] = .ok forest ∧
      (Complete [⟨⟨1⟩, 0, none, none⟩, ⟨⟨2⟩, 1, some ⟨1⟩, some ⟨1⟩⟩] forest ↔
        ParentsShown [⟨⟨1⟩, 0, none, none⟩, ⟨⟨2⟩, 1, some ⟨1⟩, some ⟨1⟩⟩]) :=
  @toTree_complete_iff staff ⟨1⟩ .out none none 1 _ rfl

/-- The employee alone, found from the company: nothing is left of the result. -/
theorem not_complete_staff : ¬∀ (s : GraphStore) (start : NodeId) (direction : Direction)
    (edgeTypes : Option (List String)) (filterLabel : Option String) (maxDepth : ℕ)
    (nodes : List TraversedNode),
    s.traverseIn start direction edgeTypes filterLabel maxDepth = .ok nodes →
      ∃ forest, toTree nodes = .ok forest ∧ Complete nodes forest := by
  intro h
  have hnodes : staff.traverseIn ⟨1⟩ .out none (some "Person") 1 =
      .ok [⟨⟨2⟩, 1, some ⟨1⟩, some ⟨1⟩⟩] := rfl
  obtain ⟨forest, hforest, hcomplete⟩ := h _ _ _ _ _ _ _ hnodes
  obtain rfl : [] = forest := Except.ok.inj hforest
  exact absurd (hcomplete _ List.mem_cons_self).1 List.not_mem_nil

end GraphStore
