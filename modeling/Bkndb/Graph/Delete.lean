import Bkndb.Graph.Preserve

/-!
# Deletion of nodes

Deleting a node removes its outgoing and incoming rows with their edges, then the node and its index
entries. A cascading deletion does so for every node of its list; the loop that collects the list
only reads.

## In two halves

Outgoing rows go first, with their edges and the rows at the other end, and then the incoming ones.
An edge from the node to itself has a row in each half: the second one is gone when its half is
scanned. `removeRows_spec` is about a loop over any list of rows that names each edge once, and
each half is an instance.

A node that no edge touches can be removed with its index entries, and the invariant of the rest is
that of a store without the node (`deleteBareNode_spec`).
-/

namespace GraphStore

open Graph

variable {s s' : GraphStore} {id : NodeId}

/-! ## The edges of a node -/

/-- Everything but the edges and their rows. -/
structure SameNodes (s t : GraphStore) : Prop where
  nodes : t.nodes = s.nodes
  nodeLabels : t.nodeLabels = s.nodeLabels
  nodeProps : t.nodeProps = s.nodeProps
  metaTable : t.metaTable = s.metaTable

/-- A loop that removes the edge behind each of a list of rows. -/
theorem removeRows_spec (hs : s.EdgesOk) {rows : List (Bytes × Unit)} (hnodup : rows.Nodup)
    (key : EdgeRecord → EdgeId → Bytes)
    (body : GraphStore → Bytes × Unit → Except BknError GraphStore)
    (hkey : ∀ i r j r', s.getEdgeIn i = some r → s.getEdgeIn j = some r' →
      key r i = key r' j → i = j)
    (hrows : ∀ row ∈ rows, ∃ i r, s.getEdgeIn i = some r ∧ row.1 = key r i)
    (hbody : ∀ t i r, s.getEdgeIn i = some r → (key r i, ()) ∈ rows →
      body t (key r i, ()) = .ok (t.removeEdge i r)) :
    ∃ t, rows.foldlM body s = .ok t ∧ t.EdgesOk ∧ s.SameNodes t ∧
      ∀ i r, t.getEdgeIn i = some r ↔ s.getEdgeIn i = some r ∧ (key r i, ()) ∉ rows := by
  refine Except.foldlM_exists (fun done t ↦ t.EdgesOk ∧ s.SameNodes t ∧
    ∀ i r, t.getEdgeIn i = some r ↔ s.getEdgeIn i = some r ∧ (key r i, ()) ∉ done)
    ⟨hs, ⟨rfl, rfl, rfl, rfl⟩, by simp⟩ ?_
  rintro done ⟨k, ⟨⟩⟩ t hpre ⟨ht, hsame, hget⟩
  have hmem : (k, ()) ∈ rows := hpre.subset (by simp)
  obtain ⟨i, r, hi, hk⟩ := hrows _ hmem
  obtain rfl : k = key r i := hk
  have hnew : (key r i, ()) ∉ done := by
    have := hnodup.sublist hpre.sublist
    rw [List.nodup_append] at this
    exact fun hd ↦ this.2.2 _ hd _ (by simp) rfl
  refine ⟨_, hbody t i r hi hmem, ht.removeEdge ((hget i r).mpr ⟨hi, hnew⟩),
    ⟨hsame.nodes, hsame.nodeLabels, hsame.nodeProps, hsame.metaTable⟩, fun j r' ↦ ?_⟩
  rw [getEdgeIn_removeEdge, List.mem_append, List.mem_singleton, Prod.mk.injEq]
  constructor
  · intro hj
    split_ifs at hj with h
    obtain ⟨hj, hdone⟩ := (hget j r').mp hj
    exact ⟨hj, fun hor ↦ hor.elim hdone fun heq ↦ h (hkey j r' i r hj hi heq.1)⟩
  · rintro ⟨hj, hnot⟩
    rw [if_neg]
    · exact (hget j r').mpr ⟨hj, fun hd ↦ hnot (.inl hd)⟩
    · rintro rfl
      obtain rfl := Option.some.inj (hi.symm.trans hj)
      exact hnot (.inr ⟨rfl, rfl⟩)

theorem mem_adjRows {table : OrdMap Bytes Unit} {k : Bytes} :
    (k, ()) ∈ adjRows table id ↔ table.contains k = true ∧
      (Bound.included (nodeKey id)).Above k ∧ (Bound.stop (nextNodePrefix id)).Below k := by
  rw [adjRows, OrdMap.mem_range, OrdMap.contains_iff]
  exact and_congr_left fun _ ↦ ⟨fun h ↦ ⟨(), h⟩, fun ⟨(), h⟩ ↦ h⟩

theorem adjRows_nodup (table : OrdMap Bytes Unit) (id : NodeId) : (adjRows table id).Nodup :=
  (table.range_sorted _ _).imp fun h heq ↦ absurd (heq ▸ h) (lt_irrefl _)

theorem deleteOutRows_spec (hs : s.EdgesOk) (id : NodeId) :
    ∃ t, (adjRows s.adjOut id).foldlM (deleteOutRow id) s = .ok t ∧ t.EdgesOk ∧ s.SameNodes t ∧
      ∀ i r, t.getEdgeIn i = some r ↔ s.getEdgeIn i = some r ∧ r.src ≠ id := by
  have hmem : ∀ i r, s.getEdgeIn i = some r →
      ((adjOutKey r.src r.edgeType r.dst i, ()) ∈ adjRows s.adjOut id ↔ r.src = id) := by
    intro i r hi
    rw [mem_adjRows, and_iff_right ((hs.adjOut _).mpr ⟨i, r, hi, rfl⟩)]
    exact encodeAdjKey_mem_node
  obtain ⟨t, ht, hok, hsame, hget⟩ := removeRows_spec hs (adjRows_nodup s.adjOut id)
    (fun r i ↦ adjOutKey r.src r.edgeType r.dst i) (deleteOutRow id)
    (fun i r j r' hi hj hk ↦
      ((encodeAdjKey_inj (hs.shortType i r hi) (hs.shortType j r' hj)).mp hk).2.2.2)
    (fun row hrow ↦ (hs.adjOut _).mp (mem_adjRows.mp hrow).1)
    (fun t i r hi hrow ↦ by
      obtain rfl := (hmem i r hi).mp hrow
      simp only [deleteOutRow, adjOutKey, decodeAdjKey_encodeAdjKey (hs.shortType i r hi),
        Except.ok_bind]
      rfl)
  refine ⟨t, ht, hok, hsame, fun i r ↦ ?_⟩
  rw [hget]
  exact and_congr_right fun hi ↦ not_congr (hmem i r hi)

theorem deleteInRows_spec (hs : s.EdgesOk) (id : NodeId) :
    ∃ t, (adjRows s.adjIn id).foldlM (deleteInRow id) s = .ok t ∧ t.EdgesOk ∧ s.SameNodes t ∧
      ∀ i r, t.getEdgeIn i = some r ↔ s.getEdgeIn i = some r ∧ r.dst ≠ id := by
  have hmem : ∀ i r, s.getEdgeIn i = some r →
      ((adjInKey r.dst r.edgeType r.src i, ()) ∈ adjRows s.adjIn id ↔ r.dst = id) := by
    intro i r hi
    rw [mem_adjRows, and_iff_right ((hs.adjIn _).mpr ⟨i, r, hi, rfl⟩)]
    exact encodeAdjKey_mem_node
  obtain ⟨t, ht, hok, hsame, hget⟩ := removeRows_spec hs (adjRows_nodup s.adjIn id)
    (fun r i ↦ adjInKey r.dst r.edgeType r.src i) (deleteInRow id)
    (fun i r j r' hi hj hk ↦
      ((encodeAdjKey_inj (hs.shortType i r hi) (hs.shortType j r' hj)).mp hk).2.2.2)
    (fun row hrow ↦ (hs.adjIn _).mp (mem_adjRows.mp hrow).1)
    (fun t i r hi hrow ↦ by
      obtain rfl := (hmem i r hi).mp hrow
      simp only [deleteInRow, adjInKey, decodeAdjKey_encodeAdjKey (hs.shortType i r hi),
        Except.ok_bind]
      rfl)
  refine ⟨t, ht, hok, hsame, fun i r ↦ ?_⟩
  rw [hget]
  exact and_congr_right fun hi ↦ not_congr (hmem i r hi)

/-! ## The node -/

/-- What deleting a node does. -/
structure Deleted (s : GraphStore) (id : NodeId) (t : GraphStore) : Prop where
  consistent : t.Consistent
  /-- The node is gone, the others stay. -/
  nodes : ∀ i, t.getNodeIn i = if i = id then none else s.getNodeIn i
  /-- The edges touching it are gone, the others stay. -/
  edges : ∀ e r, t.getEdgeIn e = some r ↔ s.getEdgeIn e = some r ∧ r.src ≠ id ∧ r.dst ≠ id
  /-- No counter and no registration changes. -/
  metaTable : t.metaTable = s.metaTable

/-- The last part: a node no edge touches is removed with its index entries. -/
theorem deleteBareNode_spec (hs : s.Consistent)
    (hbare : ∀ e r, s.getEdgeIn e = some r → r.src ≠ id ∧ r.dst ≠ id) :
    ∃ t, s.dropEntries id = .ok t ∧
      s.Deleted id { t with nodes := t.nodes.erase (nodeKey id) } := by
  rw [dropEntries]
  cases hrec : s.nodes.get? (nodeKey id) with
  | none =>
    have hsame : ({ s with nodes := s.nodes.erase (nodeKey id) } : GraphStore) = s := by
      rw [OrdMap.erase_of_get?_eq_none hrec]
    refine ⟨s, rfl, ?_, fun i ↦ get?_erase_nodeKey i, fun e r ↦ ?_, rfl⟩
    · rwa [hsame]
    · exact ⟨fun h ↦ ⟨h, hbare e r h⟩, And.left⟩
  | some record =>
    have hnode : s.getNodeIn id = some record := hrec
    have hl := hs.labels.shortLabel id record hnode
    obtain ⟨k, m, hk, hdel, hm⟩ := onDelete_spec id hs.registry hl
    have hget : ∀ i, getNodeIn { s with
        nodes := s.nodes.erase (nodeKey id)
        nodeLabels := s.nodeLabels.erase k
        nodeProps := m } i = if i = id then none else s.getNodeIn i := get?_erase_nodeKey
    refine ⟨_, hdel, ⟨hs.edges.congr rfl rfl rfl, ⟨?_, ?_, ?_⟩, hs.registry, ?_, ?_, ?_,
      hs.edgeIds⟩, hget, fun e r ↦ ⟨fun h ↦ ⟨h, hbare e r h⟩, And.left⟩, rfl⟩
    · intro key hkey
      exact hs.labels.nodeKey key (OrdMap.contains_erase.mp hkey).2
    · intro i r hi
      rw [hget] at hi
      split_ifs at hi
      exact hs.labels.shortLabel i r hi
    · intro key
      rw [OrdMap.contains_erase, hs.labels.nodeLabels]
      simp only [hget]
      constructor
      · rintro ⟨hne, i, r, hi, hkey⟩
        refine ⟨i, r, ?_, hkey⟩
        rw [if_neg, hi]
        rintro rfl
        obtain rfl := Option.some.inj (hnode.symm.trans hi)
        rw [hk] at hkey
        exact hne (Except.ok.inj hkey).symm
      · rintro ⟨i, r, hi, hkey⟩
        split_ifs at hi with h
        refine ⟨?_, i, r, hi, hkey⟩
        rintro rfl
        exact h (labelKey_inj hkey hk).2
    · intro key
      rw [hm, hs.props key]
      simp only [PropKey, hget]
      constructor
      · rintro ⟨⟨i, r, p, hi, hreg, hkey⟩, hnot⟩
        refine ⟨i, r, p, ?_, hreg, hkey⟩
        rw [if_neg, hi]
        rintro rfl
        obtain rfl := Option.some.inj (hnode.symm.trans hi)
        exact hnot p hreg hkey
      · rintro ⟨i, r, p, hi, hreg, hkey⟩
        split_ifs at hi with h
        exact ⟨⟨i, r, p, hi, hreg, hkey⟩, fun q _ hq ↦ h (propEntry_inj hkey hq).2.2⟩
    · intro e r he
      obtain ⟨h1, h2⟩ := hs.endpoints e r he
      obtain ⟨hsrc, hdst⟩ := hbare e r he
      simp only [hget, if_neg hsrc, if_neg hdst]
      exact ⟨h1, h2⟩
    · obtain ⟨n, hn, hlt⟩ := hs.nodeIds
      refine ⟨n, hn, fun i hi ↦ ?_⟩
      rw [hget] at hi
      split_ifs at hi
      · simp at hi
      · exact hlt i hi

/-- The invariant after some edges are removed. -/
theorem Consistent.of_sameNodes (hs : s.Consistent) (he : s'.EdgesOk) (hsame : s.SameNodes s')
    (hsub : ∀ e r, s'.getEdgeIn e = some r → s.getEdgeIn e = some r) : s'.Consistent where
  edges := he
  labels := hs.labels.congr hsame.nodes hsame.nodeLabels
  registry := hs.registry.congr fun k _ ↦ by rw [hsame.metaTable]
  props := hs.props.congr hsame.nodes hsame.nodeProps fun k _ ↦ by rw [hsame.metaTable]
  endpoints := fun e r h ↦ by
    simp only [getNodeIn, hsame.nodes]
    exact hs.endpoints e r (hsub e r h)
  nodeIds := hs.nodeIds.congr hsame.nodes (by rw [hsame.metaTable])
  edgeIds := by
    obtain ⟨n, hn, hlt⟩ := hs.edgeIds
    refine ⟨n, (counter_congr (by rw [hsame.metaTable])).trans hn, fun e h ↦ ?_⟩
    obtain ⟨r, hr⟩ := Option.isSome_iff_exists.mp h
    exact hlt e (by rw [hsub e r hr]; rfl)

/-- **Deleting a node succeeds** and removes exactly the node and the edges touching it. -/
theorem deleteNodeIn_spec (hs : s.Consistent) (id : NodeId) :
    ∃ t, s.deleteNodeIn id = .ok t ∧ s.Deleted id t := by
  obtain ⟨s₁, h₁, hok₁, hsame₁, hget₁⟩ := deleteOutRows_spec hs.edges id
  obtain ⟨s₂, h₂, hok₂, hsame₂, hget₂⟩ := deleteInRows_spec hok₁ id
  have hs₁ : s₁.Consistent :=
    hs.of_sameNodes hok₁ hsame₁ fun e r h ↦ ((hget₁ e r).mp h).1
  have hs₂ : s₂.Consistent :=
    hs₁.of_sameNodes hok₂ hsame₂ fun e r h ↦ ((hget₂ e r).mp h).1
  have hget : ∀ e r, s₂.getEdgeIn e = some r ↔
      s.getEdgeIn e = some r ∧ r.src ≠ id ∧ r.dst ≠ id := by
    intro e r
    rw [hget₂, hget₁, and_assoc]
  obtain ⟨t, ht, hdel⟩ := deleteBareNode_spec hs₂ fun e r h ↦ ((hget e r).mp h).2
  refine ⟨{ t with nodes := t.nodes.erase (nodeKey id) }, ?_, hdel.consistent, fun i ↦ ?_,
    fun e r ↦ ?_, ?_⟩
  · rw [deleteNodeIn, h₁, Except.ok_bind, h₂, Except.ok_bind, ht]
    rfl
  · rw [hdel.nodes, getNodeIn, hsame₂.nodes, hsame₁.nodes, getNodeIn]
  · rw [hdel.edges, hget]
    exact ⟨And.left, fun h ↦ ⟨h, h.2⟩⟩
  · rw [hdel.metaTable, hsame₂.metaTable, hsame₁.metaTable]

/-- A run of deletions keeps the invariant and the metadata. -/
theorem Consistent.deleteNodes (hs : s.Consistent) {ids : List NodeId}
    (h : ids.foldlM GraphStore.deleteNodeIn s = .ok s') :
    s'.Consistent ∧ s'.metaTable = s.metaTable := by
  refine Except.foldlM_invariant (fun t ↦ t.Consistent ∧ t.metaTable = s.metaTable) h
    ⟨hs, rfl⟩ ?_
  rintro id - t t' ⟨ht, hmeta⟩ hstep
  obtain ⟨u, hu, hdel⟩ := deleteNodeIn_spec ht id
  obtain rfl := Except.ok.inj (hu.symm.trans hstep)
  exact ⟨hdel.consistent, hdel.metaTable.trans hmeta⟩

end GraphStore
