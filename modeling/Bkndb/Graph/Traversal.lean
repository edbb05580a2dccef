import Bkndb.Basic.Search
import Bkndb.Graph.StoreInvariant
import Bkndb.Graph.Neighbors

/-!
# Traversal

The bounded breadth-first traversal over one read transaction (`graph/traversal/mod.rs`). A label
filter hides nodes from the result without stopping the walk. In a consistent store the result holds
every node within the depth once, under its distance from the start.

The loop runs at most once for every row of the two adjacency tables, and once for the start.

## Two levels

What a traversal returns is stated first for any store (`traverseIn_searched`): it is a finished
search along what the calls read, whatever the rows decode to. Only the last step uses the
invariant, which says that what is read are the ends of edges (`EdgesOk.reads_iff`).

## Main results

* `traversed_of_run`: in every state of a run whose edge types fit, a traversal from any node,
  along any types, to any depth, returns the nodes within the depth that pass the filter, each
  once, under its distance.
* `not_traversed_longType`: with a type that does not fit, it may lead to a node that does not
  exist.
-/

/-- Which edges of a node are followed. -/
inductive Direction where
  | out
  | «in»
  | both
  deriving DecidableEq, Repr

/-- A node of a traversal. -/
structure TraversedNode where
  /-- The node. -/
  node : NodeId
  /-- How many steps from the start it was found. -/
  depth : ℕ
  /-- The edge it was found by. -/
  viaEdge : Option EdgeId
  /-- The node it was found from. -/
  parent : Option NodeId
  deriving DecidableEq, Repr

namespace GraphStore

open Graph

/-! ## Neighbours -/

/-- The neighbours of a node in one table, along a list of types one after the other. -/
def neighborsAlong (table : OrdMap Bytes Unit) (node : NodeId) :
    Option (List String) → Except BknError (List (NodeId × EdgeId))
  | some types => types.foldlM (fun res t ↦ do return res ++ (← neighborsIn table node t)) []
  | none => do return (← neighborsAnyIn table node).map Prod.snd

/-- The neighbours of a node. A type that is listed twice gives its neighbours twice. -/
def neighborsForTraversal (s : GraphStore) (node : NodeId) (direction : Direction)
    (edgeTypes : Option (List String)) : Except BknError (List (NodeId × EdgeId)) :=
  match direction with
  | .out => neighborsAlong s.adjOut node edgeTypes
  | .in => neighborsAlong s.adjIn node edgeTypes
  | .both => do
    let out ← neighborsAlong s.adjOut node edgeTypes
    let incoming ← neighborsAlong s.adjIn node edgeTypes
    return out ++ incoming

/-! ## The loop -/

/-- Whether a node is shown: it exists with the label that is asked for, if there is one. -/
def matchesLabel (s : GraphStore) (filterLabel : Option String) (node : NodeId) : Bool :=
  match filterLabel with
  | some target =>
    match s.getNodeIn node with
    | some record => record.label == target
    | none => false
  | none => true

/-- What the loop keeps: the nodes visited, the queue with depths, and the result. -/
structure TraverseState where
  visited : List NodeId
  queue : List (NodeId × ℕ)
  out : List TraversedNode

/-- One neighbour of the current node. -/
def visitNeighbor (s : GraphStore) (filterLabel : Option String) (current : NodeId) (depth : ℕ)
    (st : TraverseState) (neighbor : NodeId × EdgeId) : TraverseState :=
  if neighbor.1 ∈ st.visited then st
  else
    { visited := neighbor.1 :: st.visited
      queue := st.queue ++ [(neighbor.1, depth + 1)]
      out :=
        if s.matchesLabel filterLabel neighbor.1 then
          st.out ++ [⟨neighbor.1, depth + 1, some neighbor.2, some current⟩]
        else st.out }

/-- The breadth-first loop, with a bound on its iterations. -/
def traverseLoop (s : GraphStore) (direction : Direction) (edgeTypes : Option (List String))
    (filterLabel : Option String) (maxDepth : ℕ) :
    ℕ → TraverseState → Except BknError (List TraversedNode)
  | 0, st => .ok st.out
  | fuel + 1, st =>
    match st.queue with
    | [] => .ok st.out
    | (current, depth) :: queue =>
      if maxDepth ≤ depth then
        s.traverseLoop direction edgeTypes filterLabel maxDepth fuel { st with queue }
      else do
        let neighbors ← s.neighborsForTraversal current direction edgeTypes
        s.traverseLoop direction edgeTypes filterLabel maxDepth fuel
          (neighbors.foldl (s.visitNeighbor filterLabel current depth) { st with queue })

/-- The nodes within `maxDepth` steps of `start`, nearest first. -/
def traverseIn (s : GraphStore) (start : NodeId) (direction : Direction)
    (edgeTypes : Option (List String)) (filterLabel : Option String) (maxDepth : ℕ) :
    Except BknError (List TraversedNode) :=
  let out := if s.matchesLabel filterLabel start then [⟨start, 0, none, none⟩] else []
  s.traverseLoop direction edgeTypes filterLabel maxDepth (s.adjOut.size + s.adjIn.size + 1)
    ⟨[start], [(start, 0)], out⟩

/-! ## Edges that are followed -/

/-- A list of types admits a type. -/
def Admits (edgeTypes : Option (List String)) (t : String) : Prop :=
  ∀ types, edgeTypes = some types → t ∈ types

/-- An edge leads from one node to another in a direction. -/
def Joins (r : EdgeRecord) : Direction → NodeId → NodeId → Prop
  | .out, a, b => r.src = a ∧ r.dst = b
  | .in, a, b => r.dst = a ∧ r.src = b
  | .both, a, b => (r.src = a ∧ r.dst = b) ∨ (r.dst = a ∧ r.src = b)

/-- An existing edge of an admitted type leads from one node to another. -/
def Hop (s : GraphStore) (direction : Direction) (edgeTypes : Option (List String)) (a : NodeId)
    (e : EdgeId) (b : NodeId) : Prop :=
  ∃ r, s.getEdgeIn e = some r ∧ Admits edgeTypes r.edgeType ∧ Joins r direction a b

variable {s : GraphStore} {table : OrdMap Bytes Unit} {node other start : NodeId} {e : EdgeId}
  {direction : Direction} {edgeTypes : Option (List String)} {filterLabel : Option String}
  {maxDepth : ℕ}

theorem RowsOf.neighborsAlong {first second : EdgeRecord → NodeId}
    (hs : s.RowsOf table first second) (node : NodeId) (edgeTypes : Option (List String)) :
    ∃ l, neighborsAlong table node edgeTypes = .ok l ∧ ∀ other e, (other, e) ∈ l ↔
      ∃ r, s.getEdgeIn e = some r ∧ Admits edgeTypes r.edgeType ∧ first r = node ∧
        second r = other := by
  cases edgeTypes with
  | none =>
    obtain ⟨l, hl, -, hmem⟩ := hs.neighborsAnyIn node
    refine ⟨l.map Prod.snd, (by rw [GraphStore.neighborsAlong, hl]; rfl), fun other e ↦ ?_⟩
    constructor
    · intro h
      obtain ⟨⟨t, other', e'⟩, hrow, heq⟩ := List.mem_map.mp h
      obtain ⟨rfl, rfl⟩ := Prod.mk.inj heq
      obtain ⟨r, hr, hfirst, -, hsecond⟩ := (hmem t other' e').mp hrow
      exact ⟨r, hr, by simp [Admits], hfirst, hsecond⟩
    · rintro ⟨r, hr, -, hfirst, hsecond⟩
      exact List.mem_map.mpr ⟨_, (hmem r.edgeType other e).mpr ⟨r, hr, hfirst, rfl, hsecond⟩, rfl⟩
  | some types =>
    obtain ⟨l, hl, hmem⟩ := Except.foldlM_exists (l := types) (s := [])
      (f := fun res t ↦ do return res ++ (← GraphStore.neighborsIn table node t))
      (fun done l ↦ ∀ other e, (other, e) ∈ l ↔ ∃ r, s.getEdgeIn e = some r ∧
        r.edgeType ∈ done ∧ first r = node ∧ second r = other) (by simp) (by
        rintro done t res - hres
        obtain ⟨l, hl, -, hmem⟩ := hs.neighborsIn node t
        refine ⟨res ++ l, (by rw [hl]; rfl), fun other e ↦ ?_⟩
        rw [List.mem_append, hres, hmem]
        constructor
        · rintro (⟨r, hr, ht, hends⟩ | ⟨r, hr, hfirst, rfl, hsecond⟩)
          · exact ⟨r, hr, List.mem_append_left _ ht, hends⟩
          · exact ⟨r, hr, by simp, hfirst, hsecond⟩
        · rintro ⟨r, hr, ht, hfirst, hsecond⟩
          rcases List.mem_append.mp ht with ht | ht
          · exact .inl ⟨r, hr, ht, hfirst, hsecond⟩
          · exact .inr ⟨r, hr, hfirst, List.mem_singleton.mp ht, hsecond⟩)
    refine ⟨l, hl, fun other e ↦ (hmem other e).trans ?_⟩
    simp [Admits]

/-- **The neighbours of a traversal** are the ends of the edges that are followed. -/
theorem EdgesOk.neighborsForTraversal (hs : s.EdgesOk) (node : NodeId) (direction : Direction)
    (edgeTypes : Option (List String)) :
    ∃ l, s.neighborsForTraversal node direction edgeTypes = .ok l ∧
      ∀ other e, (other, e) ∈ l ↔ s.Hop direction edgeTypes node e other := by
  obtain ⟨out, hout, hmemOut⟩ := hs.rowsOut.neighborsAlong node edgeTypes
  obtain ⟨incoming, hin, hmemIn⟩ := hs.rowsIn.neighborsAlong node edgeTypes
  cases direction with
  | out => exact ⟨out, hout, hmemOut⟩
  | «in» => exact ⟨incoming, hin, hmemIn⟩
  | both =>
    refine ⟨out ++ incoming, ?_, fun other e ↦ ?_⟩
    · rw [GraphStore.neighborsForTraversal, hout, Except.ok_bind, hin]
      rfl
    · rw [List.mem_append, hmemOut, hmemIn]
      constructor
      · rintro (⟨r, hr, hadm, hends⟩ | ⟨r, hr, hadm, hends⟩)
        · exact ⟨r, hr, hadm, .inl hends⟩
        · exact ⟨r, hr, hadm, .inr hends⟩
      · rintro ⟨r, hr, hadm, hends | hends⟩
        · exact .inl ⟨r, hr, hadm, hends⟩
        · exact .inr ⟨r, hr, hadm, hends⟩

/-! ## What the calls read -/

/-- The neighbours that are read for a node, whether or not they are ends of its edges. -/
def Reads (s : GraphStore) (direction : Direction) (edgeTypes : Option (List String)) (a : NodeId)
    (e : EdgeId) (b : NodeId) : Prop :=
  ∃ l, s.neighborsForTraversal a direction edgeTypes = .ok l ∧ (b, e) ∈ l

theorem EdgesOk.reads_iff (hs : s.EdgesOk) {a b : NodeId} :
    s.Reads direction edgeTypes a e b ↔ s.Hop direction edgeTypes a e b := by
  obtain ⟨l, hl, hmem⟩ := hs.neighborsForTraversal a direction edgeTypes
  rw [← hmem]
  constructor
  · rintro ⟨l', hl', he⟩
    obtain rfl := Except.ok.inj (hl.symm.trans hl')
    exact he
  · exact fun he ↦ ⟨l, hl, he⟩

/-- The node that a row ends in. -/
def rowEnd (row : Bytes × Unit) : Option NodeId :=
  match decodeAdjKey row.1 with
  | .ok (_, _, other, _) => some other
  | .error _ => none

/-- The nodes that the rows end in. -/
def rowEnds (s : GraphStore) : List NodeId := (s.adjOut.entries ++ s.adjIn.entries).filterMap rowEnd

theorem length_rowEnds_le (s : GraphStore) : s.rowEnds.length ≤ s.adjOut.size + s.adjIn.size := by
  refine (List.length_filterMap_le _ _).trans ?_
  rw [List.length_append]
  rfl

theorem mem_rowEnds_of_mapM {lo hi : Bound Bytes} {β : Type} {l : List β}
    (read : NodeId × String × NodeId × EdgeId → β) (node : β → NodeId)
    (hread : ∀ f, node (read f) = f.2.2.1)
    (h : (table.range lo hi).mapM (fun row ↦ do return read (← decodeAdjKey row.1)) = .ok l)
    {b : β} (hb : b ∈ l) : node b ∈ table.entries.filterMap rowEnd := by
  obtain ⟨⟨k, v⟩, hrow, hdec⟩ := (Except.mapM_eq_ok_iff.mp h).exists_left hb
  obtain ⟨f, hf, heq⟩ := Except.bind_eq_ok.mp hdec
  obtain rfl := Except.ok.inj heq
  rw [List.mem_filterMap]
  refine ⟨(k, v), OrdMap.mem_entries.mpr (OrdMap.mem_range.mp hrow).1, ?_⟩
  rw [rowEnd, hf, hread]

theorem mem_rowEnds_of_neighborsAlong {l : List (NodeId × EdgeId)}
    (h : neighborsAlong table node edgeTypes = .ok l) (hmem : (other, e) ∈ l) :
    other ∈ table.entries.filterMap rowEnd := by
  cases edgeTypes with
  | none =>
    obtain ⟨rows, hrows, heq⟩ := Except.bind_eq_ok.mp h
    obtain rfl := Except.ok.inj heq
    obtain ⟨row, hrow, heq⟩ := List.mem_map.mp hmem
    have := mem_rowEnds_of_mapM (fun f ↦ (f.2.1, f.2.2.1, f.2.2.2)) (fun row ↦ row.2.1)
      (fun _ ↦ rfl) hrows hrow
    rwa [heq] at this
  | some types =>
    have hrun := Except.foldlM_invariant
      (fun l : List (NodeId × EdgeId) ↦ ∀ x ∈ l, x.1 ∈ table.entries.filterMap rowEnd) h
      (by simp) (by
        intro t _ res res' hres hstep x hx
        obtain ⟨rows, hrows, heq⟩ := Except.bind_eq_ok.mp hstep
        obtain rfl := Except.ok.inj heq
        rcases List.mem_append.mp hx with hx | hx
        · exact hres x hx
        · exact mem_rowEnds_of_mapM (fun f ↦ (f.2.2.1, f.2.2.2)) Prod.fst
            (fun _ ↦ rfl) hrows hx)
    exact hrun _ hmem

theorem Reads.mem_rowEnds {a b : NodeId} (h : s.Reads direction edgeTypes a e b) :
    b ∈ s.rowEnds := by
  obtain ⟨l, hl, hmem⟩ := h
  rw [rowEnds, List.filterMap_append, List.mem_append]
  cases direction with
  | out => exact .inl (mem_rowEnds_of_neighborsAlong hl hmem)
  | «in» => exact .inr (mem_rowEnds_of_neighborsAlong hl hmem)
  | both =>
    obtain ⟨out, hout, hrest⟩ := Except.bind_eq_ok.mp hl
    obtain ⟨incoming, hin, heq⟩ := Except.bind_eq_ok.mp hrest
    obtain rfl := Except.ok.inj heq
    rcases List.mem_append.mp hmem with hmem | hmem
    · exact .inl (mem_rowEnds_of_neighborsAlong hout hmem)
    · exact .inr (mem_rowEnds_of_neighborsAlong hin hmem)

/-! ## The loop as a search

The loop marks a node when it queues it, so the set of visited nodes and the queue are the entries
of a search. Entries whose depth is the limit are not expanded. -/

open Search

/-- The entry of the result for a node that was found. -/
def toTraversed (x : Found NodeId EdgeId) : TraversedNode :=
  ⟨x.node, x.depth, x.via.map Prod.snd, x.via.map Prod.fst⟩

/-- The part of a search that is shown. -/
def shown (s : GraphStore) (filterLabel : Option String) (found : List (Found NodeId EdgeId)) :
    List TraversedNode :=
  (found.filter fun x ↦ s.matchesLabel filterLabel x.node).map toTraversed

/-- The state of the loop is that of a search. -/
structure Tracks (s : GraphStore) (filterLabel : Option String)
    (found pending : List (Found NodeId EdgeId)) (st : TraverseState) : Prop where
  visited : ∀ c, c ∈ st.visited ↔ c ∈ found.map Found.node
  queue : st.queue = pending.map fun x ↦ (x.node, x.depth)
  out : st.out = s.shown filterLabel found

theorem Tracks.foldl_visitNeighbor {found pending : List (Found NodeId EdgeId)}
    {st : TraverseState} (p : Found NodeId EdgeId) (h : s.Tracks filterLabel found pending st)
    (neighbors : List (NodeId × EdgeId)) :
    s.Tracks filterLabel (found ++ fresh p st.visited neighbors)
      (pending ++ fresh p st.visited neighbors)
      (neighbors.foldl (s.visitNeighbor filterLabel p.node p.depth) st) := by
  induction neighbors generalizing found pending st with
  | nil => simpa [fresh] using h
  | cons neighbor neighbors ih =>
    obtain ⟨next, e⟩ := neighbor
    rw [List.foldl_cons, visitNeighbor, fresh]
    split_ifs with hseen hshow
    · exact ih h
    · have := @ih (found ++ [child p e next]) (pending ++ [child p e next])
        ⟨next :: st.visited, st.queue ++ [(next, p.depth + 1)],
          st.out ++ [⟨next, p.depth + 1, some e, some p.node⟩]⟩
        ⟨fun c ↦ by simp [h.visited, child, or_comm], by simp [h.queue, child],
          by simp [h.out, shown, child, toTraversed, hshow]⟩
      simpa using this
    · have := @ih (found ++ [child p e next]) (pending ++ [child p e next])
        ⟨next :: st.visited, st.queue ++ [(next, p.depth + 1)], st.out⟩
        ⟨fun c ↦ by simp [h.visited, child, or_comm], by simp [h.queue, child],
          by simp [h.out, shown, child, hshow]⟩
      simpa using this

/-- **The loop finishes a search**: whatever it returns, it has expanded everything. -/
theorem traverseLoop_searched {done pending : List (Found NodeId EdgeId)} {fuel : ℕ}
    {st : TraverseState} {nodes : List TraversedNode}
    (h : Searched (s.Reads direction edgeTypes) (· < maxDepth) start done pending)
    (ht : s.Tracks filterLabel (done ++ pending) pending st)
    (hfuel : s.rowEnds.length + 1 ≤ fuel + done.length)
    (hloop : s.traverseLoop direction edgeTypes filterLabel maxDepth fuel st = .ok nodes) :
    ∃ found, Searched (s.Reads direction edgeTypes) (· < maxDepth) start found [] ∧
      nodes = s.shown filterLabel found := by
  induction fuel generalizing done pending st with
  | zero =>
    -- every node that can be found has been processed
    have hle := h.grown.length_le fun _ _ _ hE ↦ hE.mem_rowEnds
    rw [List.length_append] at hle
    obtain rfl : pending = [] := List.length_eq_zero_iff.mp (by omega)
    refine ⟨done, h, ?_⟩
    rw [← Except.ok.inj hloop, ht.out, List.append_nil]
  | succ fuel ih =>
    rw [traverseLoop, ht.queue] at hloop
    cases pending with
    | nil =>
      refine ⟨done, h, ?_⟩
      rw [← Except.ok.inj hloop, ht.out, List.append_nil]
    | cons p pending =>
      have hlist : done ++ [p] ++ pending = done ++ p :: pending := by
        rw [List.append_assoc, List.singleton_append]
      have hpop : s.Tracks filterLabel (done ++ p :: pending) pending
          { st with queue := pending.map fun x ↦ (x.node, x.depth) } :=
        ⟨ht.visited, rfl, ht.out⟩
      simp only [List.map_cons] at hloop
      split_ifs at hloop with hdepth
      · refine ih (h.skip (not_lt.mpr hdepth)) (hlist ▸ hpop) ?_ hloop
        rw [List.length_append, List.length_singleton]
        omega
      · obtain ⟨neighbors, hcall, hloop⟩ := Except.bind_eq_ok.mp hloop
        have hnext : ∀ c e, (c, e) ∈ neighbors ↔ s.Reads direction edgeTypes p.node e c := by
          intro c e
          refine ⟨fun he ↦ ⟨_, hcall, he⟩, ?_⟩
          rintro ⟨l, hl, he⟩
          obtain rfl := Except.ok.inj (hcall.symm.trans hl)
          exact he
        refine ih (h.expand (not_le.mp hdepth) ht.visited hnext) ?_ ?_ hloop
        · have := hpop.foldl_visitNeighbor p neighbors
          rwa [← hlist, List.append_assoc] at this
        · rw [List.length_append, List.length_singleton]
          omega

/-- What a traversal returns is what a finished search found, as far as it is shown. -/
theorem traverseIn_searched {nodes : List TraversedNode}
    (h : s.traverseIn start direction edgeTypes filterLabel maxDepth = .ok nodes) :
    ∃ found, Searched (s.Reads direction edgeTypes) (· < maxDepth) start found [] ∧
      nodes = s.shown filterLabel found := by
  rw [traverseIn] at h
  refine traverseLoop_searched (.init _ _ start) ?_ ?_ h
  · refine ⟨by simp [root], rfl, ?_⟩
    simp only [List.nil_append, shown, root, List.filter_cons, List.filter_nil]
    split_ifs <;> rfl
  · have := s.length_rowEnds_le
    simp only [List.length_nil]
    omega

/-- A loop whose calls succeed succeeds. -/
theorem traverseLoop_isOk
    (hcalls : ∀ node, ∃ l, s.neighborsForTraversal node direction edgeTypes = .ok l) (fuel : ℕ)
    (st : TraverseState) :
    ∃ nodes, s.traverseLoop direction edgeTypes filterLabel maxDepth fuel st = .ok nodes := by
  induction fuel generalizing st with
  | zero => exact ⟨_, rfl⟩
  | succ fuel ih =>
    rw [traverseLoop]
    split
    · exact ⟨_, rfl⟩
    · split_ifs
      · exact ih _
      · obtain ⟨l, hl⟩ := hcalls _
        rw [hl, Except.ok_bind]
        exact ih _

/-! ## What a traversal returns -/

/-- A node is shown under a filter: it has the label that is asked for. -/
def Passes (s : GraphStore) (filterLabel : Option String) (node : NodeId) : Prop :=
  ∀ label, filterLabel = some label → ∃ r, s.getNodeIn node = some r ∧ r.label = label

theorem matchesLabel_iff : s.matchesLabel filterLabel node = true ↔ s.Passes filterLabel node := by
  cases filterLabel with
  | none => simp [matchesLabel, Passes]
  | some label =>
    rw [matchesLabel, Passes]
    cases s.getNodeIn node <;> simp

/-- The nodes within a depth that pass the filter, each once, nearest first, under its distance and
with the edge that it was reached by. -/
structure Traversed (s : GraphStore) (start : NodeId) (direction : Direction)
    (edgeTypes : Option (List String)) (filterLabel : Option String) (maxDepth : ℕ)
    (nodes : List TraversedNode) : Prop where
  /-- No node twice. -/
  nodup : (nodes.map TraversedNode.node).Nodup
  /-- Nearest first. -/
  sorted : nodes.Pairwise fun x y ↦ x.depth ≤ y.depth
  /-- The nodes with their depths. -/
  mem : ∀ node depth, (∃ x ∈ nodes, x.node = node ∧ x.depth = depth) ↔
    IsDist (s.Hop direction edgeTypes) start node depth ∧ depth ≤ maxDepth ∧
      s.Passes filterLabel node
  /-- How a node was reached. -/
  via : ∀ x ∈ nodes, x.node ≠ start → ∃ parent e depth, x.parent = some parent ∧
    x.viaEdge = some e ∧ s.Hop direction edgeTypes parent e x.node ∧
      IsDist (s.Hop direction edgeTypes) start parent depth ∧ x.depth = depth + 1

/-- **Bounded traversal.** In a consistent store a traversal succeeds and returns the nodes within
the depth, under their distances. -/
theorem traverseIn_spec (hs : s.EdgesOk) (start : NodeId) (direction : Direction)
    (edgeTypes : Option (List String)) (filterLabel : Option String) (maxDepth : ℕ) :
    ∃ nodes, s.traverseIn start direction edgeTypes filterLabel maxDepth = .ok nodes ∧
      s.Traversed start direction edgeTypes filterLabel maxDepth nodes := by
  obtain ⟨nodes, hnodes⟩ := @traverseLoop_isOk s direction edgeTypes filterLabel maxDepth
    (fun node ↦ by
      obtain ⟨l, hl, -⟩ := hs.neighborsForTraversal node direction edgeTypes
      exact ⟨l, hl⟩) (s.adjOut.size + s.adjIn.size + 1) ⟨[start], [(start, 0)],
        if s.matchesLabel filterLabel start then [⟨start, 0, none, none⟩] else []⟩
  refine ⟨nodes, hnodes, ?_⟩
  obtain ⟨found, h, rfl⟩ := traverseIn_searched hnodes
  have hedges : s.Reads direction edgeTypes = s.Hop direction edgeTypes := by
    funext a e b
    exact propext hs.reads_iff
  rw [hedges] at h
  have hlist : found ++ [] = found := List.append_nil found
  have hgrown := h.grown
  rw [hlist] at hgrown
  have hdist : ∀ x ∈ found, IsDist (s.Hop direction edgeTypes) start x.node x.depth := fun x hx ↦
    h.isDist (by rwa [hlist])
  have hshown : ∀ {y}, y ∈ s.shown filterLabel found ↔
      ∃ x ∈ found, s.Passes filterLabel x.node ∧ toTraversed x = y := by
    simp [shown, matchesLabel_iff, and_assoc]
  refine ⟨?_, ?_, fun node depth ↦ ?_, ?_⟩
  · rw [shown, List.map_map]
    exact hgrown.nodup.sublist (List.filter_sublist.map _)
  · rw [shown, List.pairwise_map]
    exact hgrown.sorted.filter _
  · constructor
    · rintro ⟨y, hy, rfl, rfl⟩
      obtain ⟨x, hx, hpass, rfl⟩ := hshown.mp hy
      refine ⟨hdist x hx, ?_, hpass⟩
      by_contra hlt
      exact absurd (h.within x (by rwa [hlist]) maxDepth (not_le.mp hlt)) (lt_irrefl _)
    · rintro ⟨hd, hle, hpass⟩
      obtain ⟨steps, hw, rfl⟩ := hd.walk
      obtain ⟨x, hx, rfl⟩ := h.mem_iff.mpr ⟨steps, hw, fun m hm ↦ hm.trans_le hle⟩
      exact ⟨_, hshown.mpr ⟨x, hx, hpass, rfl⟩, rfl, (hdist x hx).unique hd⟩
  · rintro y hy hne
    obtain ⟨x, hx, -, rfl⟩ := hshown.mp hy
    rcases hgrown.origin hx with rfl | ⟨p, hp, e, hchild, hE, -⟩
    · exact absurd rfl hne
    · rw [hchild]
      exact ⟨p.node, e, p.depth, rfl, rfl, hE, hdist p hp, rfl⟩

end GraphStore

namespace GraphRun

open Graph GraphStore

/-- **Bounded traversal over runs.** In every state that a run reaches whose edge types fit their
length field, a traversal returns the nodes within the depth, under their distances. -/
theorem traversed_of_run (txs : List (List GraphOp))
    (hshort : ∀ ops ∈ txs, ∀ op ∈ ops, op.ShortEdges) (start : NodeId) (direction : Direction)
    (edgeTypes : Option (List String)) (filterLabel : Option String) (maxDepth : ℕ) :
    ∃ nodes, (run txs).store.traverseIn start direction edgeTypes filterLabel maxDepth =
        .ok nodes ∧
      (run txs).store.Traversed start direction edgeTypes filterLabel maxDepth nodes :=
  traverseIn_spec (ok_run hshort).consistent.edges start direction edgeTypes filterLabel maxDepth

/-- Two people who know each other. -/
theorem traversed_people :
    let person : GraphOp := .createNode "Person" ∅
    let store := (run [[person, person],
      [.createEdge ⟨1⟩ "KNOWS" ⟨2⟩ ∅, .createEdge ⟨2⟩ "KNOWS" ⟨1⟩ ∅]]).store
    ∃ nodes, store.traverseIn ⟨1⟩ .both (some ["KNOWS", "KNOWS"]) none 3 = .ok nodes ∧
      store.Traversed ⟨1⟩ .both (some ["KNOWS", "KNOWS"]) none 3 nodes := by
  refine traversed_of_run _ ?_ _ _ _ _ _
  have hknows : ShortType "KNOWS" := by decide +kernel
  simp [GraphOp.ShortEdges, hknows]

theorem utf8_longType (n : ℕ) : (longType n).utf8 = List.replicate n 97 := by
  rw [longType, String.utf8, String.toByteArray_ofList, List.utf8Encode]
  have hchars : (List.replicate n 'a').flatMap String.utf8EncodeChar = List.replicate n 97 := by
    induction n with
    | zero => rfl
    | succ n ih =>
      rw [List.replicate_succ, List.flatMap_cons, ih]
      rfl
  rw [hchars]
  simp

/-- What is read from a row whose type is so long that its length field is zero: an empty type, and
identifiers out of the bytes of the type. -/
theorem decodeAdjKey_longType {n : ℕ} (hlen : Bytes.be 2 (16 + n) = [0, 0]) (a b : NodeId)
    (e : EdgeId) : decodeAdjKey (encodeAdjKey a (longType (16 + n)) b e) =
      .ok (a, "", ⟨0x6161616161616161⟩, ⟨0x6161616161616161⟩) := by
  -- the length field is zero, and the type begins with two identifiers
  have hbytes : List.replicate 8 (97 : UInt8) = Bytes.be 8 (0x6161616161616161 : UInt64).toNat := by
    decide +kernel
  have hsplit : List.replicate (16 + n) (97 : UInt8) =
      List.replicate 8 97 ++ (List.replicate 8 97 ++ List.replicate n 97) := by
    rw [← List.replicate_add, ← List.replicate_add, ← Nat.add_assoc]
  generalize hkey : encodeAdjKey a (longType (16 + n)) b e = key
  rw [encodeAdjKey, encodeEdgeType, Bytes.lenPrefixed, utf8_longType, List.length_replicate, hsplit,
    hbytes, hlen] at hkey
  simp only [List.append_assoc] at hkey
  obtain ⟨x, hx⟩ : ∃ x, key = [] ++ (Bytes.be 8 a.id.toNat ++ x) := ⟨_, hkey.symm⟩
  obtain ⟨y, hy⟩ : ∃ y, key = (Bytes.be 8 a.id.toNat ++ [0, 0]) ++
      (Bytes.be 8 (0x6161616161616161 : UInt64).toNat ++ y) :=
    ⟨_, by rw [← hkey, List.append_assoc]⟩
  obtain ⟨z, hz⟩ : ∃ z, key = (Bytes.be 8 a.id.toNat ++ ([0, 0] ++
      Bytes.be 8 (0x6161616161616161 : UInt64).toNat)) ++
        (Bytes.be 8 (0x6161616161616161 : UInt64).toNat ++ z) :=
    ⟨_, by rw [← hkey, List.append_assoc, List.append_assoc]⟩
  have hfirst : u64At key 0 = a.id := by rw [hx, u64At_append List.length_nil]
  have hsecond : u64At key 10 = 0x6161616161616161 := by rw [hy, u64At_append (by simp)]
  have hedge : u64At key 18 = 0x6161616161616161 := by rw [hz, u64At_append (by simp)]
  have hzero : Bytes.ofBe ((key.drop 8).take 2) = 0 := by
    rw [← hkey, List.drop_left' (Bytes.length_be ..)]
    rfl
  have hlength : 26 ≤ key.length := by
    rw [← hkey]
    simp
    omega
  have hempty : fromUtf8 [] = some "" := by decide +kernel
  simp only [decodeAdjKey, hzero, List.take_zero, hfirst, hempty, Except.guardOr, Except.ofOption]
  rw [if_pos (by omega), if_pos (by omega)]
  simp only [Nat.add_zero, Nat.reduceAdd, hsecond, hedge]
  rfl

/-- The row of an edge from a person to himself whose type is 65536 bytes long leads to a node that
does not exist. -/
theorem not_traversed_longType : ¬∀ (txs : List (List GraphOp)) (start : NodeId)
    (direction : Direction) (edgeTypes : Option (List String)) (filterLabel : Option String)
    (maxDepth : ℕ), ∃ nodes,
      (run txs).store.traverseIn start direction edgeTypes filterLabel maxDepth = .ok nodes ∧
      (run txs).store.Traversed start direction edgeTypes filterLabel maxDepth nodes := by
  intro h
  obtain ⟨nodes, hnodes, ht⟩ := h (selfTxs (longType (16 + 65520))) ⟨1⟩ .out none none 1
  generalize hlong : longType (16 + 65520) = t at hnodes ht
  have hcall : ((run (selfTxs t)).store).neighborsForTraversal ⟨1⟩ .out none =
      .ok [(⟨0x6161616161616161⟩, ⟨0x6161616161616161⟩)] := by
    have hrows : (run (selfTxs t)).store.adjOut.entries = [(adjOutKey ⟨1⟩ t ⟨1⟩ ⟨1⟩, ())] := rfl
    have hall : adjRows (run (selfTxs t)).store.adjOut ⟨1⟩ = [(adjOutKey ⟨1⟩ t ⟨1⟩ ⟨1⟩, ())] := by
      rw [adjRows, OrdMap.range, hrows, List.filter_singleton]
      exact congrArg (cond · _ _) (decide_eq_true (encodeAdjKey_mem_node.mpr rfl))
    rw [neighborsForTraversal, neighborsAlong, neighborsAnyIn, hall, adjOutKey, ← hlong]
    simp only [List.mapM_cons, List.mapM_nil,
      decodeAdjKey_longType (by decide +kernel : Bytes.be 2 (16 + 65520) = [0, 0])]
    rfl
  -- the traversal follows what it reads, and shows where it got to
  obtain ⟨found, hsearch, rfl⟩ := traverseIn_searched hnodes
  have hwalk : Search.Walk ((run (selfTxs t)).store.Reads .out none) ⟨1⟩
      [(⟨0x6161616161616161⟩, ⟨0x6161616161616161⟩)] ⟨0x6161616161616161⟩ :=
    .snoc .nil ⟨_, hcall, List.mem_singleton_self _⟩
  obtain ⟨x, hx, hnode⟩ := hsearch.mem_iff.mpr ⟨_, hwalk, by simp⟩
  have hshown : toTraversed x ∈ (run (selfTxs t)).store.shown none found :=
    List.mem_map_of_mem (List.mem_filter.mpr ⟨hx, rfl⟩)
  obtain ⟨parent, e, depth, -, -, ⟨r, hr, -, -, hdst⟩, -⟩ := ht.via _ hshown (by
    simp [toTraversed, hnode])
  -- the only edge leads to the person
  have hedges : (run (selfTxs t)).store.edges =
      OrdMap.empty.insert (edgeKey ⟨1⟩) ⟨⟨1⟩, ⟨1⟩, t, ∅⟩ := rfl
  rw [getEdgeIn, hedges, OrdMap.get?_insert] at hr
  split_ifs at hr
  · obtain rfl := Option.some.inj hr
    simp [toTraversed, hnode] at hdst
  · cases hr

end GraphRun
