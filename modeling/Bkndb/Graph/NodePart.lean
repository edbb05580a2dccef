import Bkndb.Graph.StoreInvariant

/-!
# The node part of a graph store

The nodes, their two indexes and the metadata, without the edges. No operation lets an edge decide
what happens to a node, so the node part of a run is a run of its own: the node operations act on
it as they act on the store, and the edge operations leave it unchanged, except for their counter.

The invariant of the node part therefore holds in every run, also in those whose edge types do not
fit their length field and whose adjacency rows cannot be decoded.

## How it is used

`nodePart` maps a run of the database to a run of node operations, and each operation commutes with
it (the lemmas named after the operations). Results about the label index and the property indexes
need nothing else, and so they hold of every run.
-/

namespace GraphStore

open Graph

variable {s s' : GraphStore}

/-- The store without its edges. -/
def nodePart (s : GraphStore) : GraphStore := { s with edges := ∅, adjOut := ∅, adjIn := ∅ }

/-! ## Node operations -/

theorem nodePart_putProp (s : GraphStore) (entry : Option Bytes) :
    s.nodePart.putProp entry = (s.putProp entry).nodePart := by
  cases entry <;> rfl

theorem nodePart_deleteProp (s : GraphStore) (entry : Option Bytes) :
    s.nodePart.deleteProp entry = (s.deleteProp entry).nodePart := by
  cases entry <;> rfl

theorem nodePart_foldlM_putProp {α : Type} (entry : α → Except BknError (Option Bytes)) (l : List α)
    (s : GraphStore) :
    l.foldlM (fun (s : GraphStore) a ↦ do return s.putProp (← entry a)) s.nodePart =
      (l.foldlM (fun (s : GraphStore) a ↦ do return s.putProp (← entry a)) s).map nodePart := by
  refine Except.foldlM_map nodePart (fun s a ↦ ?_) l s
  rw [Except.map_bind]
  exact bind_congr fun e ↦ congrArg Except.ok (nodePart_putProp s e)

theorem nodePart_onInsert (s : GraphStore) (id : NodeId) (record : NodeRecord) :
    s.nodePart.onInsert id record = (s.onInsert id record).map nodePart := by
  rw [onInsert, onInsert, Except.map_bind]
  refine bind_congr fun k ↦ ?_
  rw [Except.map_bind]
  exact bind_congr fun ps ↦ nodePart_foldlM_putProp _ ps
    { s with nodeLabels := s.nodeLabels.insert k () }

theorem nodePart_onDelete (s : GraphStore) (id : NodeId) (record : NodeRecord) :
    s.nodePart.onDelete id record = (s.onDelete id record).map nodePart := by
  rw [onDelete, onDelete, Except.map_bind]
  refine bind_congr fun k ↦ ?_
  rw [Except.map_bind]
  refine bind_congr fun ps ↦ Except.foldlM_map nodePart (fun s p ↦ ?_) ps
    { s with nodeLabels := s.nodeLabels.erase k }
  rw [Except.map_bind]
  exact bind_congr fun e ↦ congrArg Except.ok (nodePart_deleteProp s e)

theorem nodePart_onUpdate (s : GraphStore) (id : NodeId) (old new : NodeRecord) :
    s.nodePart.onUpdate id old new = (s.onUpdate id old new).map nodePart := by
  rw [onUpdate, onUpdate, Except.map_bind]
  refine bind_congr fun ps ↦ Except.foldlM_map nodePart (fun s p ↦ ?_) ps s
  dsimp only
  split_ifs
  · rfl
  rw [Except.map_bind]
  refine bind_congr fun before ↦ ?_
  rw [Except.map_bind]
  refine bind_congr fun after ↦ congrArg Except.ok ?_
  rw [nodePart_deleteProp, nodePart_putProp]

theorem nodePart_putNode (s : GraphStore) (id : NodeId) (record : NodeRecord) :
    s.nodePart.putNode id record = (s.putNode id record).map nodePart :=
  nodePart_onInsert { s with nodes := s.nodes.insert (nodeKey id) record } id record

theorem nodePart_beforeFirstNodes (s : GraphStore) :
    s.nodePart.beforeFirstNodes = s.beforeFirstNodes.nodePart := by
  rw [beforeFirstNodes, beforeFirstNodes]
  split_ifs <;> first | rfl | contradiction

/-- A reservation reads and writes the metadata alone. -/
theorem nodePart_reserveIds (s : GraphStore) (key : Bytes) (count : ℕ) :
    s.nodePart.reserveIds key count =
      (s.reserveIds key count).map (Prod.map nodePart id) := by
  rw [reserveIds, reserveIds]
  split_ifs
  · rfl
  rw [Except.map_bind]
  refine bind_congr fun current ↦ ?_
  rw [Except.map_bind]
  rfl

theorem nodePart_createNodeIn (s : GraphStore) (label : String) (properties : Properties) :
    s.nodePart.createNodeIn label properties =
      (s.createNodeIn label properties).map (Prod.map nodePart id) := by
  rw [createNodeIn, createNodeIn, nodePart_beforeFirstNodes, nextId, nextId]
  dsimp only
  rw [nodePart_reserveIds, Except.map_bind, Except.bind_map]
  refine bind_congr fun r ↦ ?_
  dsimp only [Prod.map_fst, Prod.map_snd]
  rw [nodePart_putNode, Except.map_bind, Except.bind_map]
  rfl

theorem nodePart_createNodesBulkIn (s : GraphStore) (items : List (String × Properties)) :
    s.nodePart.createNodesBulkIn items =
      (s.createNodesBulkIn items).map (Prod.map nodePart id) := by
  rw [createNodesBulkIn, createNodesBulkIn, nodePart_beforeFirstNodes]
  split_ifs
  · rfl
  dsimp only
  rw [nodePart_reserveIds, Except.map_bind, Except.bind_map]
  refine bind_congr fun r ↦ ?_
  refine Except.foldlM_map (Prod.map nodePart id) (fun t a ↦ ?_) items.zipIdx (r.1, [])
  dsimp only [Prod.map_fst, Prod.map_snd]
  rw [nodePart_putNode, Except.map_bind, Except.bind_map]
  rfl

theorem nodePart_updateNodePropertiesIn (s : GraphStore) (id : NodeId)
    (mutate : Properties → Properties) :
    s.nodePart.updateNodePropertiesIn id mutate =
      (s.updateNodePropertiesIn id mutate).map nodePart := by
  rw [updateNodePropertiesIn, updateNodePropertiesIn, Except.map_bind]
  refine bind_congr fun old ↦ ?_
  dsimp only
  rw [nodePart_onUpdate, Except.map_bind, Except.bind_map]
  rfl

theorem nodePart_backfillProperty (s : GraphStore) (label property : String) :
    s.nodePart.backfillProperty label property = (s.backfillProperty label property).map nodePart := by
  rw [backfillProperty, backfillProperty, Except.map_bind]
  refine bind_congr fun p ↦ ?_
  rw [Except.map_bind]
  refine bind_congr fun ids ↦ Except.foldlM_map nodePart (fun t id ↦ ?_) ids
    { s with nodeProps := clearPrefix s.nodeProps p }
  rw [backfillNode, backfillNode, Except.map_bind]
  exact bind_congr fun e ↦ congrArg Except.ok (nodePart_putProp t e)

theorem nodePart_createPropertyIndexIn (s : GraphStore) (label property : String) :
    s.nodePart.createPropertyIndexIn label property =
      (s.createPropertyIndexIn label property).map (Prod.map nodePart id) := by
  rw [createPropertyIndexIn, createPropertyIndexIn, Except.map_bind]
  refine bind_congr fun reg ↦ ?_
  change (if (s.metaTable.get? reg).isSome then _ else _) = _
  split_ifs
  · rfl
  rw [Except.map_bind]
  change (nodePart { s with metaTable := s.metaTable.insert reg [] }).backfillProperty _ _ >>= _ = _
  rw [nodePart_backfillProperty]
  cases GraphStore.backfillProperty _ _ _ <;> rfl

theorem nodePart_dropPropertyIndexIn (s : GraphStore) (label property : String) :
    s.nodePart.dropPropertyIndexIn label property =
      (s.dropPropertyIndexIn label property).map (Prod.map nodePart id) := by
  rw [dropPropertyIndexIn, dropPropertyIndexIn, Except.map_bind]
  refine bind_congr fun reg ↦ ?_
  change (if (s.metaTable.get? reg).isNone then _ else _) = _
  split_ifs
  · rfl
  rw [Except.map_bind]
  rfl

theorem nodePart_relabel (l : List (NodeId × NodeRecord)) (s : GraphStore) :
    let enter := fun (s : GraphStore) (e : NodeId × NodeRecord) ↦ (do
      return { s with nodeLabels := s.nodeLabels.insert (← labelKey e.2.label e.1) () } :
        Except BknError GraphStore)
    l.foldlM enter s.nodePart = (l.foldlM enter s).map nodePart := by
  refine Except.foldlM_map nodePart (fun s e ↦ ?_) l s
  rw [Except.map_bind]
  rfl

theorem nodePart_rebuildIndexesIn (s : GraphStore) :
    s.nodePart.rebuildIndexesIn = s.rebuildIndexesIn.map nodePart := by
  rw [rebuildIndexesIn, rebuildIndexesIn, Except.map_bind]
  refine bind_congr fun nodes ↦ ?_
  have hlabels := nodePart_relabel nodes { s with nodeLabels := clearPrefix s.nodeLabels [] }
  dsimp only at hlabels ⊢
  rw [Except.map_bind]
  refine (congrArg (fun x : Except BknError GraphStore ↦ x >>= _) hlabels).trans ?_
  rw [Except.bind_map]
  refine bind_congr fun t ↦ ?_
  rw [Except.map_bind]
  exact bind_congr fun pairs ↦ Except.foldlM_map nodePart
    (fun u e ↦ nodePart_backfillProperty u e.1 e.2) pairs
    { t with metaTable := t.metaTable.insert labelIndexMarker [1] }

/-! ## Deletion of nodes

Deleting a node reads its rows, and fails if one does not decode. Then the transaction is dropped,
and the node part is that of the state before. -/

theorem nodePart_dropEntries (s : GraphStore) (id : NodeId) :
    s.nodePart.dropEntries id = (s.dropEntries id).map nodePart := by
  rw [dropEntries, dropEntries, show s.nodePart.nodes = s.nodes from rfl]
  split
  · exact nodePart_onDelete s id _
  · rfl

theorem nodePart_of_rows {f : GraphStore → Bytes × Unit → Except BknError GraphStore}
    (hf : ∀ {s s' row}, f s row = .ok s' → s'.nodePart = s.nodePart) {l : List (Bytes × Unit)}
    (h : l.foldlM f s = .ok s') : s'.nodePart = s.nodePart :=
  Except.foldlM_invariant (fun t : GraphStore ↦ t.nodePart = s.nodePart) h rfl
    fun _ _ _ _ ht hstep ↦ (hf hstep).trans ht

theorem nodePart_deleteOutRow {id : NodeId} {row : Bytes × Unit}
    (h : deleteOutRow id s row = .ok s') : s'.nodePart = s.nodePart := by
  obtain ⟨_, -, heq⟩ := Except.bind_eq_ok.mp h
  rw [← Except.ok.inj heq]
  rfl

theorem nodePart_deleteInRow {id : NodeId} {row : Bytes × Unit}
    (h : deleteInRow id s row = .ok s') : s'.nodePart = s.nodePart := by
  obtain ⟨_, -, heq⟩ := Except.bind_eq_ok.mp h
  rw [← Except.ok.inj heq]
  rfl

/-- Without edges a node is deleted as with them: the rows decide only which edges go, or that the
deletion fails. -/
theorem nodePart_deleteNodeIn {id : NodeId} (h : s.deleteNodeIn id = .ok s') :
    s.nodePart.deleteNodeIn id = .ok s'.nodePart := by
  simp only [deleteNodeIn, Except.bind_eq_ok] at h
  obtain ⟨s₁, h₁, s₂, h₂, s₃, h₃, heq⟩ := h
  obtain rfl := Except.ok.inj heq
  have hpart : s₂.nodePart = s.nodePart :=
    (nodePart_of_rows nodePart_deleteInRow h₂).trans (nodePart_of_rows nodePart_deleteOutRow h₁)
  have hdrop : s.nodePart.dropEntries id = .ok s₃.nodePart := by
    rw [← hpart, nodePart_dropEntries, h₃]
    rfl
  have hempty : adjRows ∅ id = [] := rfl
  rw [deleteNodeIn, show s.nodePart.adjOut = ∅ from rfl, hempty]
  simp only [List.foldlM_nil, pure_bind]
  rw [show s.nodePart.adjIn = ∅ from rfl, hempty]
  simp only [List.foldlM_nil, pure_bind]
  rw [hdrop]
  rfl

/-! ## Edge operations -/

/-- A reservation of edge identifiers keeps the invariant of the node part. -/
theorem nodePart_reserveEdgeIds {count start : ℕ} (hs : s.nodePart.Consistent) (hcount : count ≠ 0)
    (h : s.reserveIds nextEdgeIdKey count = .ok (s', start)) : s'.nodePart.Consistent := by
  have hpart : s.nodePart.reserveIds nextEdgeIdKey count = .ok (s'.nodePart, start) := by
    rw [nodePart_reserveIds, h]
    rfl
  exact hs.reserveEdgeIds hcount hpart

theorem nodePart_createEdgeIn {src dst : NodeId} {edgeType : String} {properties : Properties}
    {id : EdgeId} (hs : s.nodePart.Consistent)
    (h : s.createEdgeIn src edgeType dst properties = .ok (s', id)) : s'.nodePart.Consistent := by
  simp only [createEdgeIn, Except.bind_eq_ok] at h
  obtain ⟨-, -, -, -, ⟨t, n⟩, hres, heq⟩ := h
  obtain ⟨rfl, -⟩ := Prod.mk.inj (Except.ok.inj heq)
  have ht : t.nodePart.Consistent := nodePart_reserveEdgeIds hs one_ne_zero hres
  exact ht

theorem nodePart_createEdgesBulkIn {items : List (NodeId × String × NodeId × Properties)}
    {ids : List EdgeId} (hs : s.nodePart.Consistent)
    (h : s.createEdgesBulkIn items = .ok (s', ids)) : s'.nodePart.Consistent := by
  rw [createEdgesBulkIn] at h
  split_ifs at h with hempty
  · obtain ⟨rfl, -⟩ := Prod.mk.inj (Except.ok.inj h)
    exact hs
  obtain ⟨⟨t, start⟩, hres, h⟩ := Except.bind_eq_ok.mp h
  obtain ⟨⟨u, ids', v⟩, hloop, heq⟩ := Except.bind_eq_ok.mp h
  obtain ⟨rfl, -⟩ := Prod.mk.inj (Except.ok.inj heq)
  have ht := nodePart_reserveEdgeIds hs (by simpa using hempty) hres
  refine Except.foldlM_invariant
    (fun t : GraphStore × List EdgeId × List NodeId ↦ t.1.nodePart.Consistent) hloop ht ?_
  rintro ⟨⟨src, edgeType, dst, properties⟩, i⟩ - ⟨w, ids, verified⟩ w' hw hstep
  obtain ⟨v₁, -, hstep⟩ := Except.bind_eq_ok.mp hstep
  obtain ⟨v₂, -, heq⟩ := Except.bind_eq_ok.mp hstep
  rw [← Except.ok.inj heq]
  exact hw

theorem nodePart_updateEdgePropertiesIn {edge : EdgeId} {mutate : Properties → Properties}
    (h : s.updateEdgePropertiesIn edge mutate = .ok s') : s'.nodePart = s.nodePart := by
  obtain ⟨record, -, heq⟩ := Except.bind_eq_ok.mp h
  rw [← Except.ok.inj heq]
  rfl

theorem nodePart_deleteEdgeIn (s : GraphStore) (edge : EdgeId) :
    (s.deleteEdgeIn edge).1.nodePart = s.nodePart := by
  rw [deleteEdgeIn]
  split <;> rfl

end GraphStore

namespace GraphRun

open Graph GraphStore

variable {r r' : GraphRun}

/-! ## Runs -/

/-- The invariant of a run, for a store that handed out no identifiers yet. -/
theorem ok_of_consistent {s : GraphStore} (hs : s.Consistent) : (⟨s, [], []⟩ : GraphRun).Ok := by
  obtain ⟨n, hn, -⟩ := hs.nodeIds
  obtain ⟨e, he, -⟩ := hs.edgeIds
  exact ⟨hs, ⟨⟨n, hn, by simp⟩, .nil⟩, ⟨⟨e, he, by simp⟩, .nil⟩⟩

/-- What a node operation makes of a consistent store. -/
theorem consistent_of_apply {s : GraphStore} (hs : s.Consistent) (op : GraphOp) (r' : GraphRun)
    (hshort : op.ShortEdges) (h : (⟨s, [], []⟩ : GraphRun).apply op = .ok r') :
    r'.store.Consistent :=
  ((ok_of_consistent hs).apply hshort h).consistent

theorem nodePart_consistent_deleteNodeIn {s s' : GraphStore} {id : NodeId}
    (hs : s.nodePart.Consistent) (h : s.deleteNodeIn id = .ok s') : s'.nodePart.Consistent := by
  refine consistent_of_apply hs (.deleteNode id) ⟨s'.nodePart, [], []⟩ trivial ?_
  rw [GraphRun.apply, nodePart_deleteNodeIn h]
  rfl

/-- **Every operation keeps the invariant of the node part**, whatever its edge types are. -/
theorem nodePart_consistent_apply {op : GraphOp} (hs : r.store.nodePart.Consistent)
    (h : r.apply op = .ok r') : r'.store.nodePart.Consistent := by
  cases op with
  | createNode label properties =>
    obtain ⟨⟨s, id⟩, hop, heq⟩ := Except.bind_eq_ok.mp h
    rw [← Except.ok.inj heq]
    refine consistent_of_apply hs (.createNode label properties) ⟨s.nodePart, [id], []⟩ trivial ?_
    rw [GraphRun.apply, nodePart_createNodeIn, hop]
    rfl
  | createNodesBulk nodes =>
    obtain ⟨⟨s, ids⟩, hop, heq⟩ := Except.bind_eq_ok.mp h
    rw [← Except.ok.inj heq]
    refine consistent_of_apply hs (.createNodesBulk nodes) ⟨s.nodePart, ids, []⟩ trivial ?_
    rw [GraphRun.apply, nodePart_createNodesBulkIn, hop]
    rfl
  | createEdge src edgeType dst properties =>
    obtain ⟨⟨s, id⟩, hop, heq⟩ := Except.bind_eq_ok.mp h
    rw [← Except.ok.inj heq]
    exact nodePart_createEdgeIn hs hop
  | createEdgesBulk edges =>
    obtain ⟨⟨s, ids⟩, hop, heq⟩ := Except.bind_eq_ok.mp h
    rw [← Except.ok.inj heq]
    exact nodePart_createEdgesBulkIn hs hop
  | updateNodeProperties id mutate =>
    obtain ⟨s, hop, heq⟩ := Except.bind_eq_ok.mp h
    rw [← Except.ok.inj heq]
    refine consistent_of_apply hs (.updateNodeProperties id mutate) ⟨s.nodePart, [], []⟩ trivial ?_
    rw [GraphRun.apply, nodePart_updateNodePropertiesIn, hop]
    rfl
  | updateEdgeProperties edge mutate =>
    obtain ⟨s, hop, heq⟩ := Except.bind_eq_ok.mp h
    rw [← Except.ok.inj heq]
    exact nodePart_updateEdgePropertiesIn hop ▸ hs
  | deleteEdge edge =>
    rw [← Except.ok.inj h]
    exact (nodePart_deleteEdgeIn r.store edge).symm ▸ hs
  | deleteNode id =>
    obtain ⟨s, hop, heq⟩ := Except.bind_eq_ok.mp h
    rw [← Except.ok.inj heq]
    exact nodePart_consistent_deleteNodeIn hs hop
  | cascadeDelete root edgeType =>
    obtain ⟨⟨s, deleted⟩, hop, heq⟩ := Except.bind_eq_ok.mp h
    rw [← Except.ok.inj heq]
    simp only [cascadeDeleteIn, Except.bind_eq_ok] at hop
    obtain ⟨-, -, toDelete, -, t, ht, heq⟩ := hop
    obtain ⟨rfl, -⟩ := Prod.mk.inj (Except.ok.inj heq)
    exact Except.foldlM_invariant (fun t : GraphStore ↦ t.nodePart.Consistent) ht hs
      fun _ _ _ _ hu hstep ↦ nodePart_consistent_deleteNodeIn hu hstep
  | createPropertyIndex label property =>
    obtain ⟨⟨s, b⟩, hop, heq⟩ := Except.bind_eq_ok.mp h
    rw [← Except.ok.inj heq]
    refine consistent_of_apply hs (.createPropertyIndex label property) ⟨s.nodePart, [], []⟩ trivial ?_
    rw [GraphRun.apply, nodePart_createPropertyIndexIn, hop]
    rfl
  | dropPropertyIndex label property =>
    obtain ⟨⟨s, b⟩, hop, heq⟩ := Except.bind_eq_ok.mp h
    rw [← Except.ok.inj heq]
    refine consistent_of_apply hs (.dropPropertyIndex label property) ⟨s.nodePart, [], []⟩ trivial ?_
    rw [GraphRun.apply, nodePart_dropPropertyIndexIn, hop]
    rfl
  | rebuildIndexes =>
    obtain ⟨s, hop, heq⟩ := Except.bind_eq_ok.mp h
    rw [← Except.ok.inj heq]
    refine consistent_of_apply hs (.rebuildIndexes) ⟨s.nodePart, [], []⟩ trivial ?_
    rw [GraphRun.apply, nodePart_rebuildIndexesIn, hop]
    rfl

theorem nodePart_consistent_transact {ops : List GraphOp} (hs : r.store.nodePart.Consistent) :
    (r.transact ops).store.nodePart.Consistent := by
  rw [GraphRun.transact]
  split
  · rename_i r' h
    exact Except.foldlM_invariant (fun r : GraphRun ↦ r.store.nodePart.Consistent) h hs
      fun _ _ _ _ ht hstep ↦ nodePart_consistent_apply ht hstep
  · exact hs

/-- **The node part of every run is consistent.** -/
theorem nodePart_consistent_run (txs : List (List GraphOp)) :
    (run txs).store.nodePart.Consistent := by
  refine List.foldlRecOn txs transact (motive := fun r ↦ r.store.nodePart.Consistent) ?_ ?_
  · exact ok_empty.consistent
  · exact fun _ hr _ _ ↦ nodePart_consistent_transact hr

end GraphRun
