import Bkndb.Graph.Bulk
import Bkndb.Relational.Db

/-!
# Batches

A batch of nodes, edges and rows, executed in one transaction over the graph and the tables
(`db/sync.rs`). An edge of the batch can refer to a node of the same batch by its position. The nodes
come first, so every reference is resolved against the identifiers they received, and a position
that no node has fails the batch.

The transaction is dropped when a step fails, also by a panic; that the storage accepts the commit
is not modelled.

## Main results

* `syncBatchIn_linked`: every reference of a batch that succeeds is resolved to the identifier its
  node received.
* `syncBatchIn_of_dangling`: a reference past the end fails the batch, and `writeTx_of_not_ok` that
  a batch that fails leaves no trace.
-/

/-- What a database stores: a graph and tables. -/
structure DbStore where
  graph : GraphStore := {}
  relational : RelStore := .fresh

/-- An end of an edge in a batch: an existing node, or the node at a position of the batch. -/
inductive NodeRef where
  | existing (id : NodeId)
  | new (index : ℕ)

/-- A batch. -/
structure SyncBatch where
  nodes : List (String × Properties) := []
  edges : List (NodeId × String × NodeId × Properties) := []
  /-- Edges whose ends may be nodes of this batch, created after `edges`. -/
  linkedEdges : List (NodeRef × String × NodeRef × Properties) := []
  relationalRows : List (TableSchema × List Properties) := []
  relationalRowsWithPk : List (TableSchema × List (PropValue × Properties)) := []

/-- The identifiers and keys a batch was given. -/
structure SyncBatchResult where
  nodeIds : List NodeId
  edgeIds : List EdgeId
  relationalPks : List (List PropValue)

namespace NodeRef

/-- The node of a reference. -/
def resolve (created : List NodeId) : NodeRef → Except BknError NodeId
  | existing id => .ok id
  | new i => .ofOption (.encoding
      s!"NodeRef::New({i}) is out of range: the batch creates {created.length} node(s)") created[i]?

/-- What a reference means, given the identifiers of the nodes of its batch. -/
def RefersTo (created : List NodeId) : NodeRef → NodeId → Prop
  | existing id, node => node = id
  | new i, node => created[i]? = some node

/-- A position no node of the batch has. -/
def OutOfRange (count : ℕ) : NodeRef → Prop
  | existing _ => False
  | new i => count ≤ i

variable {created : List NodeId} {ref : NodeRef} {node : NodeId}

theorem resolve_eq_ok : ref.resolve created = .ok node ↔ ref.RefersTo created node := by
  cases ref with
  | existing id => exact ⟨fun h ↦ (Except.ok.inj h).symm, fun h ↦ congrArg Except.ok h.symm⟩
  | new i => exact Except.ofOption_eq_ok

theorem not_refersTo_of_outOfRange (h : ref.OutOfRange created.length) :
    ¬ref.RefersTo created node := by
  cases ref with
  | existing id => exact h.elim
  | new i => exact fun hnode ↦ not_le.mpr (List.getElem?_eq_some_iff.mp hnode).1 h

end NodeRef

/-- An edge with its ends resolved. -/
def linkEdge (created : List NodeId) (e : NodeRef × String × NodeRef × Properties) :
    Except BknError (NodeId × String × NodeId × Properties) := do
  return (← e.1.resolve created, e.2.1, ← e.2.2.1.resolve created, e.2.2.2)

/-- A handle of a batch: a reserved name panics. -/
def batchTable (name : String) : Except BknError Unit :=
  let names := ", ".intercalate reservedTableNames
  .guardOr (name ∉ reservedTableNames)
    (.panic s!"table name '{name}' is reserved for bkndb-core's internal use (one of: {names})")

section Rows

variable [Unicode] {D : Type} [LinearOrder D] (g : Ann.Geometry D)

/-- Upsert rows through a handle; their keys. -/
def RelStore.upsertBulk (s : RelStore) (schema : TableSchema) (rows : List Properties) :
    Except BknError (List PropValue × RelStore) := do
  batchTable schema.name
  let resolved ← (s schema.name).resolveRef ⟨schema, false⟩
  let (pks, t) ← (s schema.name).insertBulkIn g resolved rows .replace
  return (pks, Function.update s schema.name t)

/-- Upsert rows under given keys through a handle. -/
def RelStore.upsertWithPkBulk (s : RelStore) (schema : TableSchema)
    (rows : List (PropValue × Properties)) : Except BknError RelStore := do
  batchTable schema.name
  let resolved ← (s schema.name).resolveRef ⟨schema, false⟩
  let t ← (s schema.name).insertWithPkBulkIn g resolved rows .replace
  return Function.update s schema.name t

/-- Some end of a linked edge refers to a position that no node of the batch has. -/
def SyncBatch.Dangling (batch : SyncBatch) : Prop :=
  ∃ e ∈ batch.linkedEdges,
    e.1.OutOfRange batch.nodes.length ∨ e.2.2.1.OutOfRange batch.nodes.length

namespace DbStore

open GraphStore

/-- A write transaction: committed if its closure succeeds, else dropped. -/
def writeTx {R : Type} (db : DbStore) (f : DbStore → Except BknError (R × DbStore)) :
    Except BknError R × DbStore :=
  match f db with
  | .ok (r, db') => (.ok r, db')
  | .error e => (.error e, db)

/-- The steps of a batch. -/
def syncBatchIn (batch : SyncBatch) (db : DbStore) :
    Except BknError (SyncBatchResult × DbStore) := do
  let (graph, nodeIds) ← db.graph.createNodesBulkIn batch.nodes
  let linked ← batch.linkedEdges.mapM (linkEdge nodeIds)
  let (graph, edgeIds) ← graph.createEdgesBulkIn (batch.edges ++ linked)
  let (relational, relationalPks) ← batch.relationalRows.foldlM
    (fun (relational, all) (schema, rows) ↦ do
      let (pks, relational) ← relational.upsertBulk g schema rows
      return (relational, all ++ [pks])) (db.relational, [])
  let relational ← batch.relationalRowsWithPk.foldlM
    (fun relational (schema, rows) ↦ relational.upsertWithPkBulk g schema rows) relational
  return (⟨nodeIds, edgeIds, relationalPks⟩, ⟨graph, relational⟩)

/-- Execute a batch in one transaction. -/
def syncBatch (db : DbStore) (batch : SyncBatch) : Except BknError SyncBatchResult × DbStore :=
  db.writeTx (syncBatchIn g batch)

variable {g} {db db' : DbStore} {batch : SyncBatch} {result : SyncBatchResult}

omit [Unicode] in
theorem writeTx_eq_ok {R : Type} {f : DbStore → Except BknError (R × DbStore)} {r : R} :
    db.writeTx f = (.ok r, db') ↔ f db = .ok (r, db') := by
  rw [writeTx]
  split
  · rename_i r' db₁ h
    rw [h, Prod.mk.injEq, Except.ok.injEq, Except.ok.injEq, Prod.mk.injEq]
  · rename_i e h
    simp [h]

omit [Unicode] in
/-- A failed transaction leaves no trace. -/
theorem writeTx_of_not_ok {R : Type} {f : DbStore → Except BknError (R × DbStore)}
    (h : ∀ r, f db ≠ .ok r) : ∃ e, db.writeTx f = (.error e, db) := by
  cases hf : f db with
  | ok r => exact absurd hf (h r)
  | error e => exact ⟨e, by rw [writeTx, hf]⟩

/-! ## Batches -/

/-- Every linked edge of a batch is stored between the nodes its ends refer to. -/
def Linked (batch : SyncBatch) (result : SyncBatchResult) (db : DbStore) : Prop :=
  ∀ j e, batch.linkedEdges[j]? = some e → ∃ id record,
    result.edgeIds[batch.edges.length + j]? = some id ∧ db.graph.getEdgeIn id = some record ∧
      e.1.RefersTo result.nodeIds record.src ∧ e.2.2.1.RefersTo result.nodeIds record.dst ∧
      record.edgeType = e.2.1 ∧ record.properties = e.2.2.2

omit [Unicode] in
theorem linkEdge_eq_ok {created : List NodeId} {e : NodeRef × String × NodeRef × Properties}
    {r : NodeId × String × NodeId × Properties} : linkEdge created e = .ok r ↔
      e.1.RefersTo created r.1 ∧ e.2.2.1.RefersTo created r.2.2.1 ∧ r.2.1 = e.2.1 ∧
        r.2.2.2 = e.2.2.2 := by
  obtain ⟨src, edgeType, dst, properties⟩ := r
  simp only [linkEdge, Except.bind_eq_ok, NodeRef.resolve_eq_ok]
  constructor
  · rintro ⟨a, ha, b, hb, heq⟩
    obtain ⟨rfl, rfl, rfl, rfl⟩ : a = src ∧ e.2.1 = edgeType ∧ b = dst ∧ e.2.2.2 = properties := by
      simpa [pure, Except.pure] using heq
    exact ⟨ha, hb, rfl, rfl⟩
  · rintro ⟨ha, hb, rfl, rfl⟩
    exact ⟨src, ha, dst, hb, rfl⟩

theorem syncBatchIn_graph (h : syncBatchIn g batch db = .ok (result, db')) :
    ∃ s linked, db.graph.createNodesBulkIn batch.nodes = .ok (s, result.nodeIds) ∧
      batch.linkedEdges.mapM (linkEdge result.nodeIds) = .ok linked ∧
      s.createEdgesBulkIn (batch.edges ++ linked) = .ok (db'.graph, result.edgeIds) := by
  rw [syncBatchIn, Except.bind_eq_ok] at h
  obtain ⟨⟨s, nodeIds⟩, hnodes, h⟩ := h
  obtain ⟨linked, hlinked, h⟩ := Except.bind_eq_ok.mp h
  obtain ⟨⟨t, edgeIds⟩, hedges, h⟩ := Except.bind_eq_ok.mp h
  obtain ⟨⟨rel, pks⟩, -, h⟩ := Except.bind_eq_ok.mp h
  obtain ⟨rel', -, h⟩ := Except.bind_eq_ok.mp h
  obtain ⟨rfl, rfl⟩ := Prod.mk.inj (Except.ok.inj h)
  exact ⟨s, linked, hnodes, hlinked, hedges⟩

/-- **Every reference of a batch that succeeds is resolved** to the identifier its node received. -/
theorem syncBatchIn_linked (h : syncBatchIn g batch db = .ok (result, db')) :
    StoredUnder (fun a : String × Properties ↦ NodeRecord.mk a.1 a.2) db'.graph.getNodeIn
      batch.nodes result.nodeIds ∧ Linked batch result db' := by
  obtain ⟨s, linked, hnodes, hlinked, hedges⟩ := syncBatchIn_graph h
  obtain ⟨hsame, -, hstored⟩ := createEdgesBulkIn_storedUnder hedges
  have hget : db'.graph.getNodeIn = s.getNodeIn := funext fun id ↦ by
    rw [getNodeIn, getNodeIn, hsame]
  refine ⟨hget ▸ createNodesBulkIn_storedUnder hnodes, fun j e he ↦ ?_⟩
  have hall := Except.mapM_eq_ok_iff.mp hlinked
  obtain ⟨hj, rfl⟩ := List.getElem?_eq_some_iff.mp he
  have hj' : j < linked.length := hall.length_eq ▸ hj
  have hlink := hall.get hj hj'
  obtain ⟨hsrc, hdst, htype, hprops⟩ := linkEdge_eq_ok.mp hlink
  obtain ⟨id, hid, hrecord⟩ := hstored (batch.edges.length + j) linked[j] (by
    rw [List.getElem?_append_right (Nat.le_add_right _ _), Nat.add_sub_cancel_left,
      List.getElem?_eq_getElem hj'])
  exact ⟨id, _, hid, hrecord, hsrc, hdst, htype, hprops⟩

/-- A batch with a reference out of range does not succeed. -/
theorem syncBatchIn_of_dangling (hdangling : batch.Dangling) (r : SyncBatchResult × DbStore) :
    syncBatchIn g batch db ≠ .ok r := by
  intro h
  obtain ⟨result, db'⟩ := r
  obtain ⟨s, linked, hnodes, hlinked, -⟩ := syncBatchIn_graph h
  obtain ⟨e, he, hrange⟩ := hdangling
  rw [← (createNodesBulkIn_storedUnder hnodes).1] at hrange
  obtain ⟨r, -, hlink⟩ := (Except.mapM_eq_ok_iff.mp hlinked).exists_right he
  obtain ⟨hsrc, hdst, -⟩ := linkEdge_eq_ok.mp hlink
  rcases hrange with hrange | hrange
  · exact NodeRef.not_refersTo_of_outOfRange hrange hsrc
  · exact NodeRef.not_refersTo_of_outOfRange hrange hdst

/-- **Creation in bulk is creation one after another, and a batch resolves its references.** -/
theorem bulk_and_sync_spec (db : DbStore) (batch : SyncBatch) :
    (∀ (s s' : GraphStore) items ids, s.createNodesBulkIn items = .ok (s', ids) →
      s.createNodesOneByOne items = .ok (s', ids)) ∧
    (∀ (s s' : GraphStore) items ids, s.createEdgesBulkIn items = .ok (s', ids) →
      s.createEdgesOneByOne items = .ok (s', ids)) ∧
    (∀ result db', db.syncBatch g batch = (.ok result, db') →
      StoredUnder (fun a : String × Properties ↦ NodeRecord.mk a.1 a.2) db'.graph.getNodeIn
        batch.nodes result.nodeIds ∧ Linked batch result db') ∧
    (batch.Dangling → ∃ e, db.syncBatch g batch = (.error e, db)) :=
  ⟨fun _ _ _ _ h ↦ createNodesBulkIn_oneByOne h, fun _ _ _ _ h ↦ createEdgesBulkIn_oneByOne h,
    fun _ _ h ↦ syncBatchIn_linked (writeTx_eq_ok.mp h),
    fun h ↦ writeTx_of_not_ok (syncBatchIn_of_dangling h)⟩

end DbStore

end Rows

namespace DbStore

open GraphStore

/-- A module that calls itself through a function of its own. -/
private def recallBatch : SyncBatch where
  nodes := [("module", ∅), ("function", ∅)]
  linkedEdges := [(.new 0, "contains", .new 1, ∅), (.new 1, "calls", .new 0, ∅)]

/-- The same with a reference past the end. -/
private def danglingBatch : SyncBatch where
  nodes := [("module", ∅), ("function", ∅)]
  linkedEdges := [(.new 0, "contains", .new 2, ∅)]

/-- A batch in an empty database, and one that fails. -/
theorem bulk_and_sync_recall :
    (∃ result db', @syncBatch Unicode.ascii ℕ _ Ann.flat {} recallBatch = (.ok result, db') ∧
      result.nodeIds = [⟨1⟩, ⟨2⟩] ∧ Linked recallBatch result db') ∧
    ∃ e, @syncBatch Unicode.ascii ℕ _ Ann.flat {} danglingBatch = (.error e, {}) := by
  refine ⟨?_, (@bulk_and_sync_spec Unicode.ascii ℕ _ Ann.flat {} danglingBatch).2.2.2
    ⟨_, List.mem_singleton_self _, .inr (le_refl 2)⟩⟩
  have hrun : ∃ result db', @syncBatch Unicode.ascii ℕ _ Ann.flat {} recallBatch =
      (.ok result, db') ∧ result.nodeIds = [⟨1⟩, ⟨2⟩] := ⟨_, _, rfl, rfl⟩
  obtain ⟨result, db', h, hids⟩ := hrun
  exact ⟨result, db', h, hids,
    ((@bulk_and_sync_spec Unicode.ascii ℕ _ Ann.flat {} recallBatch).2.2.1 _ _ h).2⟩

end DbStore
