import Bkndb.Graph.Traversal
import Bkndb.Graph.Delete

/-!
# Cascading deletion

A cascading deletion (`graph/db/ops.rs`) collects the nodes that the containment edges lead to from
the root, breadth first, and deletes them in reverse. In a store that satisfies the graph invariant
it deletes exactly those nodes, with the edges that touch them and with their index entries.

## The loop as a search

The loop keeps a set of visited nodes and a queue; together they are a breadth-first search along
the containment edges, with every depth expanded. What it has collected at the end is therefore
what a walk leads to, the root first, and no node twice, also where containment goes in circles.

## Deleting in reverse

The nodes are deleted from the last to the first. A node may have lost edges to those deleted
before it; the deletion of a node removes whatever rows are left.
-/

namespace GraphStore

open Graph Search

variable {s s' : GraphStore} {root : NodeId} {edgeType : String}

/-! ## Collecting the nodes -/

/-- The relation that a cascading deletion follows. -/
abbrev Contains (s : GraphStore) (edgeType : String) (a : NodeId) (e : EdgeId) (b : NodeId) : Prop :=
  s.Hop .out (some [edgeType]) a e b

theorem EdgesOk.neighborsOutIn (hs : s.EdgesOk) (node : NodeId) (edgeType : String) :
    ∃ l, s.neighborsOutIn node edgeType = .ok l ∧
      ∀ other e, (other, e) ∈ l ↔ s.Contains edgeType node e other := by
  obtain ⟨l, hl, -, hmem⟩ := hs.rowsOut.neighborsIn node edgeType
  refine ⟨l, hl, fun other e ↦ (hmem other e).trans ?_⟩
  constructor
  · rintro ⟨r, hr, hsrc, htype, hdst⟩
    exact ⟨r, hr, by simp [Admits, htype], hsrc, hdst⟩
  · rintro ⟨r, hr, hadm, hsrc, hdst⟩
    exact ⟨r, hr, hsrc, List.mem_singleton.mp (hadm _ rfl), hdst⟩

theorem EdgesOk.mem_rowEnds_of_contains (hs : s.EdgesOk) {a b : NodeId} {e : EdgeId}
    (h : s.Contains edgeType a e b) : b ∈ s.adjOut.entries.filterMap rowEnd := by
  obtain ⟨l, hl, hmem⟩ := hs.neighborsOutIn a edgeType
  exact mem_rowEnds_of_mapM (fun f ↦ (f.2.2.1, f.2.2.2)) Prod.fst (fun _ ↦ rfl) hl
    ((hmem b e).mpr h)

theorem enqueue_cons (child : NodeId) (children visited queue : List NodeId) :
    enqueue (child :: children) visited queue =
      if child ∈ visited then enqueue children visited queue
      else enqueue children (child :: visited) (queue ++ [child]) := by
  by_cases hseen : child ∈ visited <;> simp [enqueue, hseen]

theorem enqueue_fresh (p : Found NodeId EdgeId) (neighbors : List (NodeId × EdgeId))
    (visited queue : List NodeId) : ∃ visited', enqueue (neighbors.map Prod.fst) visited queue =
        (visited', queue ++ (fresh p visited neighbors).map Found.node) ∧
      ∀ c, c ∈ visited' ↔ c ∈ visited ∨ c ∈ (fresh p visited neighbors).map Found.node := by
  induction neighbors generalizing visited queue with
  | nil => exact ⟨visited, by simp [enqueue, fresh], by simp [fresh]⟩
  | cons neighbor neighbors ih =>
    obtain ⟨child, e⟩ := neighbor
    rw [List.map_cons, enqueue_cons, fresh]
    split_ifs with hseen
    · exact ih visited queue
    · obtain ⟨visited', heq, hmem⟩ := ih (child :: visited) (queue ++ [child])
      refine ⟨visited', by rw [heq, List.append_assoc]; rfl, fun c ↦ ?_⟩
      rw [hmem, List.mem_cons, List.map_cons, List.mem_cons, or_left_comm, or_assoc]
      exact Iff.rfl

/-- **The loop collects what the containment edges lead to.** -/
theorem cascadeLoop_spec (hs : s.EdgesOk) {done pending : List (Found NodeId EdgeId)} {fuel : ℕ}
    {visited : List NodeId}
    (h : Searched (s.Contains edgeType) (fun _ ↦ True) root done pending)
    (hvisited : ∀ c, c ∈ visited ↔ c ∈ (done ++ pending).map Found.node)
    (hfuel : s.adjOut.size + 1 ≤ fuel + done.length) :
    ∃ found, s.cascadeLoop edgeType fuel (pending.map Found.node) visited (done.map Found.node) =
        .ok (found.map Found.node) ∧
      Searched (s.Contains edgeType) (fun _ ↦ True) root found [] := by
  induction fuel generalizing done pending visited with
  | zero =>
    have hle := h.grown.length_le fun _ _ _ hE ↦ hs.mem_rowEnds_of_contains hE
    have hrows : (s.adjOut.entries.filterMap rowEnd).length ≤ s.adjOut.size :=
      List.length_filterMap_le _ _
    rw [List.length_append] at hle
    obtain rfl : pending = [] := List.length_eq_zero_iff.mp (by omega)
    exact ⟨done, rfl, h⟩
  | succ fuel ih =>
    cases pending with
    | nil => exact ⟨done, rfl, h⟩
    | cons p pending =>
      obtain ⟨neighbors, hcall, hmem⟩ := hs.neighborsOutIn p.node edgeType
      obtain ⟨visited', hqueue, hvisited'⟩ := enqueue_fresh p neighbors visited
        (pending.map Found.node)
      obtain ⟨found, hloop, hfound⟩ := @ih (done ++ [p]) (pending ++ fresh p visited neighbors)
        visited' (h.expand trivial hvisited hmem) (fun c ↦ by
          rw [hvisited', hvisited, ← List.mem_append, ← List.map_append]
          simp) (by
          rw [List.length_append, List.length_singleton]
          omega)
      refine ⟨found, ?_, hfound⟩
      rw [List.map_cons, cascadeLoop, hcall, Except.ok_bind, hqueue]
      simpa using hloop

/-! ## Deleting them

`DeletedAll` says of each table what is left of it, so that a list of deletions is proved by adding
one node to the list. -/

/-- What deleting some nodes does. -/
structure DeletedAll (s : GraphStore) (ids : List NodeId) (s' : GraphStore) : Prop where
  consistent : s'.Consistent
  nodes : ∀ id, s'.getNodeIn id = if id ∈ ids then none else s.getNodeIn id
  edges : ∀ e r, s'.getEdgeIn e = some r ↔
    s.getEdgeIn e = some r ∧ r.src ∉ ids ∧ r.dst ∉ ids
  metaTable : s'.metaTable = s.metaTable

/-- Deleting nodes one after the other succeeds. -/
theorem Consistent.deleteAll (hs : s.Consistent) (ids : List NodeId) :
    ∃ s', ids.foldlM deleteNodeIn s = .ok s' ∧ s.DeletedAll ids s' := by
  refine Except.foldlM_exists (s.DeletedAll ·) ⟨hs, by simp, by simp, rfl⟩ ?_
  rintro done id t - ⟨ht, hnodes, hedges, hmeta⟩
  obtain ⟨u, hu, hdel⟩ := deleteNodeIn_spec ht id
  refine ⟨u, hu, hdel.consistent, fun i ↦ ?_, fun e r ↦ ?_, hdel.metaTable.trans hmeta⟩
  · rw [hdel.nodes, hnodes]
    by_cases hi : i = id <;> simp [hi]
  · rw [hdel.edges, hedges]
    simp only [List.mem_append, List.mem_singleton, not_or, ne_eq]
    tauto

namespace DeletedAll

variable {ids : List NodeId}

theorem adjacency {table table' : OrdMap Bytes Unit} {first second : EdgeRecord → NodeId}
    (h : s.DeletedAll ids s') (hs : s.RowsOf table first second)
    (hs' : s'.RowsOf table' first second) (k : Bytes) :
    table'.contains k = true ↔ table.contains k = true ∧ ∀ e r, s.getEdgeIn e = some r →
      r.src ∈ ids ∨ r.dst ∈ ids → k ≠ encodeAdjKey (first r) r.edgeType (second r) e := by
  rw [hs'.rows, hs.rows]
  constructor
  · rintro ⟨e, r, hget, rfl⟩
    obtain ⟨hold, hsrc, hdst⟩ := (h.edges e r).mp hget
    refine ⟨⟨e, r, hold, rfl⟩, fun e' r' hget' hgone heq ↦ ?_⟩
    obtain ⟨-, -, -, rfl⟩ :=
      (encodeAdjKey_inj (hs.shortType e r hold) (hs.shortType e' r' hget')).mp heq
    obtain rfl := Option.some.inj (hold.symm.trans hget')
    exact hgone.elim hsrc hdst
  · rintro ⟨⟨e, r, hget, rfl⟩, hnot⟩
    refine ⟨e, r, (h.edges e r).mpr ⟨hget, fun hsrc ↦ ?_, fun hdst ↦ ?_⟩, rfl⟩
    · exact hnot e r hget (.inl hsrc) rfl
    · exact hnot e r hget (.inr hdst) rfl

theorem get_iff (h : s.DeletedAll ids s') (id : NodeId) (r : NodeRecord) :
    s'.getNodeIn id = some r ↔ s.getNodeIn id = some r ∧ id ∉ ids := by
  rw [h.nodes]
  split_ifs with hid <;> simp [hid]

theorem labels (h : s.DeletedAll ids s') (hs : s.Consistent) (k : Bytes) :
    s'.nodeLabels.contains k = true ↔ s.nodeLabels.contains k = true ∧
      ∀ id r, s.getNodeIn id = some r → id ∈ ids → labelKey r.label id ≠ .ok k := by
  rw [h.consistent.labels.nodeLabels, hs.labels.nodeLabels]
  simp only [h.get_iff]
  constructor
  · rintro ⟨id, r, ⟨hget, hid⟩, hk⟩
    refine ⟨⟨id, r, hget, hk⟩, fun id' r' _ hid' hk' ↦ ?_⟩
    obtain ⟨-, rfl⟩ := labelKey_inj hk hk'
    exact hid hid'
  · rintro ⟨⟨id, r, hget, hk⟩, hnot⟩
    exact ⟨id, r, ⟨hget, fun hid ↦ hnot id r hget hid hk⟩, hk⟩

theorem props (h : s.DeletedAll ids s') (hs : s.Consistent) (k : Bytes) :
    s'.nodeProps.contains k = true ↔ s.nodeProps.contains k = true ∧
      ∀ id r, s.getNodeIn id = some r → id ∈ ids → ∀ property,
        propEntry r.label property (r.properties.get? property) id ≠ .ok (some k) := by
  rw [h.consistent.props, hs.props]
  simp only [PropKey, h.get_iff, Registered, h.metaTable]
  constructor
  · rintro ⟨id, r, property, ⟨hget, hid⟩, hreg, hk⟩
    refine ⟨⟨id, r, property, hget, hreg, hk⟩, fun id' r' _ hid' property' hk' ↦ ?_⟩
    obtain ⟨-, -, rfl⟩ := propEntry_inj hk hk'
    exact hid hid'
  · rintro ⟨⟨id, r, property, hget, hreg, hk⟩, hnot⟩
    exact ⟨id, r, property, ⟨hget, fun hid ↦ hnot id r hget hid property hk⟩, hreg, hk⟩

end DeletedAll

/-! ## The whole operation -/

/-- What a cascading deletion returns and does. -/
structure Cascaded (s : GraphStore) (root : NodeId) (edgeType : String) (s' : GraphStore)
    (deleted : List NodeId) : Prop where
  /-- The root comes first. -/
  head : deleted.head? = some root
  /-- No node twice. -/
  nodup : deleted.Nodup
  /-- The nodes that the containment edges lead to. -/
  mem : ∀ id, id ∈ deleted ↔ ∃ steps, Walk (s.Contains edgeType) root steps id
  /-- These nodes are gone, the others are unchanged. -/
  nodes : ∀ id, s'.getNodeIn id = if id ∈ deleted then none else s.getNodeIn id
  /-- The edges touching them are gone, the others are unchanged. -/
  edges : ∀ e r, s'.getEdgeIn e = some r ↔
    s.getEdgeIn e = some r ∧ r.src ∉ deleted ∧ r.dst ∉ deleted
  /-- So are the outgoing rows. -/
  adjOut : ∀ k, s'.adjOut.contains k = true ↔ s.adjOut.contains k = true ∧
    ∀ e r, s.getEdgeIn e = some r → r.src ∈ deleted ∨ r.dst ∈ deleted →
      k ≠ adjOutKey r.src r.edgeType r.dst e
  /-- So are the incoming rows. -/
  adjIn : ∀ k, s'.adjIn.contains k = true ↔ s.adjIn.contains k = true ∧
    ∀ e r, s.getEdgeIn e = some r → r.src ∈ deleted ∨ r.dst ∈ deleted →
      k ≠ adjInKey r.dst r.edgeType r.src e
  /-- So are the label entries. -/
  nodeLabels : ∀ k, s'.nodeLabels.contains k = true ↔ s.nodeLabels.contains k = true ∧
    ∀ id r, s.getNodeIn id = some r → id ∈ deleted → labelKey r.label id ≠ .ok k
  /-- So are the property entries. -/
  nodeProps : ∀ k, s'.nodeProps.contains k = true ↔ s.nodeProps.contains k = true ∧
    ∀ id r, s.getNodeIn id = some r → id ∈ deleted → ∀ property,
      propEntry r.label property (r.properties.get? property) id ≠ .ok (some k)
  /-- No counter and no registration changes. -/
  metaTable : s'.metaTable = s.metaTable
  /-- The invariant holds again. -/
  consistent : s'.Consistent

theorem DeletedAll.cascaded {found : List (Found NodeId EdgeId)}
    (h : s.DeletedAll (found.map Found.node).reverse s') (hs : s.Consistent)
    (hfound : Searched (s.Contains edgeType) (fun _ ↦ True) root found []) :
    s.Cascaded root edgeType s' (found.map Found.node) := by
  have hgrown := hfound.grown
  rw [List.append_nil] at hgrown
  have hmem : ∀ {id}, id ∈ (found.map Found.node).reverse ↔ id ∈ found.map Found.node :=
    List.mem_reverse
  refine ⟨?_, hgrown.nodup, fun id ↦ ?_, fun id ↦ ?_, fun e r ↦ ?_, fun k ↦ ?_, fun k ↦ ?_,
    fun k ↦ ?_, fun k ↦ ?_, h.metaTable, h.consistent⟩
  · obtain ⟨rest, hrest⟩ := hgrown.head
    rw [hrest]
    rfl
  · rw [List.mem_map, hfound.mem_iff]
    simp
  · simpa only [hmem] using h.nodes id
  · simpa only [hmem] using h.edges e r
  · simpa only [hmem, adjOutKey] using h.adjacency hs.edges.rowsOut h.consistent.edges.rowsOut k
  · simpa only [hmem, adjInKey] using h.adjacency hs.edges.rowsIn h.consistent.edges.rowsIn k
  · simpa only [hmem] using h.labels hs k
  · simpa only [hmem] using h.props hs k

/-- **Cascade delete is exact.** Without the root nothing changes; else the nodes that the
containment edges lead to are deleted, with their edges and their index entries, and nothing else. -/
theorem cascadeDeleteIn_spec (hs : s.Consistent) (root : NodeId) (edgeType : String) :
    (s.getNodeIn root = none → s.cascadeDeleteIn root edgeType = .error .notFound ∧
      ∀ r : GraphRun, r.store = s → r.transact [.cascadeDelete root edgeType] = r) ∧
    ((s.getNodeIn root).isSome = true → ∃ s' deleted,
      s.cascadeDeleteIn root edgeType = .ok (s', deleted) ∧
        s.Cascaded root edgeType s' deleted) := by
  constructor
  · intro hmissing
    have herr : s.cascadeDeleteIn root edgeType = .error .notFound := by
      rw [cascadeDeleteIn, hmissing]
      rfl
    refine ⟨herr, ?_⟩
    rintro r rfl
    rw [GraphRun.transact, List.foldlM_cons, GraphRun.apply, herr]
    rfl
  · intro hroot
    obtain ⟨found, hloop, hfound⟩ := cascadeLoop_spec hs.edges
      (.init (s.Contains edgeType) (fun _ ↦ True) root) (fun _ ↦ Iff.rfl)
      (Nat.le_add_right (s.adjOut.size + 1) _)
    obtain ⟨s', hdelete, hdeleted⟩ := hs.deleteAll (found.map Found.node).reverse
    refine ⟨s', found.map Found.node, ?_, hdeleted.cascaded hs hfound⟩
    have hloop' : s.cascadeLoop edgeType (s.adjOut.size + 1) [root] [root] [] =
        .ok (found.map Found.node) := hloop
    rw [cascadeDeleteIn, Except.guardOr, if_pos hroot, Except.ok_bind, hloop', Except.ok_bind,
      hdelete]
    rfl

end GraphStore

namespace GraphRun

open Graph GraphStore

/-- Two folders that contain each other, and a file that both contain. -/
def folders : List (List GraphOp) :=
  [[.createNodesBulk [("Folder", ∅), ("Folder", ∅), ("File", ∅)]],
    [.createEdge ⟨1⟩ "HAS" ⟨2⟩ ∅, .createEdge ⟨2⟩ "HAS" ⟨1⟩ ∅, .createEdge ⟨1⟩ "HAS" ⟨3⟩ ∅,
      .createEdge ⟨2⟩ "HAS" ⟨3⟩ ∅]]

theorem consistent_folders : (run folders).store.Consistent := by
  refine (ok_run ?_).consistent
  have hhas : ShortType "HAS" := by decide +kernel
  simp [folders, GraphOp.ShortEdges, hhas]

/-- The deletion of the first folder, and of a folder that does not exist. -/
theorem cascadeDelete_folders :
    (∃ s' deleted, (run folders).store.cascadeDeleteIn ⟨1⟩ "HAS" = .ok (s', deleted) ∧
      (run folders).store.Cascaded ⟨1⟩ "HAS" s' deleted) ∧
    (run folders).store.cascadeDeleteIn ⟨9⟩ "HAS" = .error .notFound :=
  ⟨(cascadeDeleteIn_spec consistent_folders ⟨1⟩ "HAS").2 rfl,
    ((cascadeDeleteIn_spec consistent_folders ⟨9⟩ "HAS").1 rfl).1⟩

example : ((run folders).store.cascadeDeleteIn ⟨1⟩ "HAS").map Prod.snd = .ok [⟨1⟩, ⟨2⟩, ⟨3⟩] := rfl

end GraphRun
