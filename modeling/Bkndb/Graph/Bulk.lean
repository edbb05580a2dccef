import Mathlib.Data.List.Sort
import Bkndb.Graph.Run

/-!
# Bulk creation

Creating nodes or edges in bulk against creating them one after another. In bulk the identifiers are
reserved before the first item is stored, and the counter is written once; one after another it
moves with each item. Between two items the states of the two ways therefore differ, but in the
counter alone, and nothing that is done with a record reads it. At the end the counters agree too.

An edge needs its two nodes. In bulk a node that was found is not looked up again, which changes
nothing, since no edge touches the nodes.

## Why the counter is set aside

`withCounter` sets the counter of a store, and each part of storing a record commutes with it. So
the state of the way one after another, with its counter set to that of the bulk, is the state of
the bulk at the same item (`Trails`), and the two loops are compared item by item.

## Main results

* `createNodesBulkIn_oneByOne` and `createEdgesBulkIn_oneByOne`: from any store, when a list of
  items is created in bulk, the identifiers and all the tables are those of one creation after
  another.
* `createNodesBulkIn_storedUnder` and `createEdgesBulkIn_storedUnder`: what is found under the
  identifiers returned.
-/

namespace Graph

variable {V : Type} {table : OrdMap Bytes V}

/-- A key without the prefix is not scanned. -/
theorem scanPrefix_insert_of_not_isPrefix {p key : Bytes} (v : V) (h : ¬p <+: key) :
    scanPrefix (table.insert key v) p = scanPrefix table p := by
  refine (scanPrefix_sorted _ p).eq_of_mem_iff (scanPrefix_sorted _ p) fun k ↦ ?_
  rw [mem_scanPrefix, mem_scanPrefix, OrdMap.contains_insert]
  constructor
  · rintro ⟨rfl | hk, hp⟩
    · exact absurd hp h
    · exact ⟨hk, hp⟩
  · exact fun ⟨hk, hp⟩ ↦ ⟨.inr hk, hp⟩

end Graph

namespace GraphStore

open Graph GraphRun

variable {s s' : GraphStore}

/-! ## One after another -/

/-- Create nodes one after another. -/
def createNodesOneByOne (s : GraphStore) (items : List (String × Properties)) :
    Except BknError (GraphStore × List NodeId) :=
  items.foldlM (fun (s, ids) (label, properties) ↦ do
    let (s, id) ← s.createNodeIn label properties
    return (s, ids ++ [id])) (s, [])

/-- Create edges one after another. -/
def createEdgesOneByOne (s : GraphStore) (items : List (NodeId × String × NodeId × Properties)) :
    Except BknError (GraphStore × List EdgeId) :=
  items.foldlM (fun (s, ids) (src, edgeType, dst, properties) ↦ do
    let (s, id) ← s.createEdgeIn src edgeType dst properties
    return (s, ids ++ [id])) (s, [])

/-! ## The counter -/

/-- The store with a counter set. -/
def withCounter (s : GraphStore) (key : Bytes) (n : ℕ) : GraphStore :=
  { s with metaTable := s.metaTable.insert key (Bytes.be 8 n) }

theorem withCounter_withCounter (s : GraphStore) (key : Bytes) (m n : ℕ) :
    (s.withCounter key m).withCounter key n = s.withCounter key n := by
  simp only [withCounter]
  congr 1
  refine OrdMap.ext fun k ↦ ?_
  rw [OrdMap.get?_insert, OrdMap.get?_insert, OrdMap.get?_insert]
  split_ifs <;> rfl

theorem counter_withCounter (s : GraphStore) (key : Bytes) {n : ℕ} (hn : n < 2 ^ 64) :
    (s.withCounter key n).counter key = .ok n := by
  rw [counter, withCounter, OrdMap.get?_insert_self]
  dsimp only
  rw [if_pos (Bytes.length_be 8 n), Bytes.ofBe_be_of_lt hn]

/-- The next identifier of a store with a given counter. -/
theorem nextId_of_counter {key : Bytes} {n : ℕ} (hc : s.counter key = .ok n)
    (hn : n + 1 < 2 ^ 64) : s.nextId key = .ok (s.withCounter key (n + 1), n) := by
  rw [nextId, reserveIds, if_neg one_ne_zero, hc, Except.ok_bind,
    checkedAdd_eq_ok.mpr ⟨hn, rfl⟩]
  rfl

/-- A node is stored and indexed without a look at its counter. -/
theorem putNode_withCounter (s : GraphStore) (n : ℕ) (id : NodeId) (record : NodeRecord) :
    (s.withCounter nextNodeIdKey n).putNode id record =
      (s.putNode id record).map (·.withCounter nextNodeIdKey n) := by
  have hprops : ∀ s : GraphStore, (s.withCounter nextNodeIdKey n).indexedProperties record.label =
      s.indexedProperties record.label := by
    intro s
    rw [indexedProperties, indexedProperties]
    refine bind_congr fun p ↦ ?_
    have hkey : ¬propIndexPrefix ++ p <+: nextNodeIdKey := fun h ↦
      not_isPrefix_nextNodeIdKey ((List.prefix_append _ _).trans h)
    rw [withCounter]
    dsimp only
    rw [scanPrefix_insert_of_not_isPrefix _ hkey]
  rw [putNode, putNode, onInsert, onInsert, Except.map_bind]
  refine bind_congr fun k ↦ ?_
  rw [Except.map_bind]
  refine (congrArg (· >>= _) (hprops { s with
    nodes := s.nodes.insert (nodeKey id) record
    nodeLabels := s.nodeLabels.insert k () })).trans (bind_congr fun ps ↦ ?_)
  refine Except.foldlM_map (·.withCounter nextNodeIdKey n) (fun t p ↦ ?_) ps
    { s with nodes := s.nodes.insert (nodeKey id) record,
             nodeLabels := s.nodeLabels.insert k () }
  rw [Except.map_bind]
  refine bind_congr fun entry ↦ congrArg Except.ok ?_
  cases entry <;> rfl

/-- An edge is stored without a look at its counter. -/
theorem putEdge_withCounter (s : GraphStore) (n : ℕ) (id : EdgeId) (record : EdgeRecord) :
    (s.withCounter nextEdgeIdKey n).putEdge id record =
      (s.putEdge id record).withCounter nextEdgeIdKey n := rfl

theorem beforeFirstNodes_withCounter (s : GraphStore) (n : ℕ) :
    (s.withCounter nextNodeIdKey n).beforeFirstNodes = s.withCounter nextNodeIdKey n := by
  rw [beforeFirstNodes, if_neg]
  rintro ⟨hnone, -⟩
  rw [withCounter, OrdMap.get?_insert_self] at hnone
  cases hnone

/-! ## The two ways agree

The state of the bulk after `i` items and that of the other way after `i` items differ in the
counter alone. Storing an item keeps it that way; the last item brings the counters together. -/

/-- A store `q` whose next identifier is number `i` of a reservation, and which differs from `b` in
the counter alone. -/
def Trails (key : Bytes) (start i : ℕ) (q b : GraphStore) : Prop :=
  start + i + 1 < 2 ^ 64 →
    q.nextId key = .ok (b.withCounter key (start + i + 1), start + i)

theorem Trails.first {key : Bytes} {start : ℕ} (hc : s.counter key = .ok start) (n : ℕ) :
    Trails key start 0 s (s.withCounter key n) := by
  intro hlt
  rw [withCounter_withCounter]
  exact nextId_of_counter hc hlt

theorem Trails.later (s : GraphStore) (key : Bytes) (start i : ℕ) :
    Trails key start i (s.withCounter key (start + i)) s := by
  intro hlt
  rw [nextId_of_counter (counter_withCounter s key (by omega)) hlt, withCounter_withCounter]

theorem createNodesOneByOne_append (s : GraphStore) (items : List (String × Properties))
    (label : String) (properties : Properties) {q : GraphStore} {ids : List NodeId}
    (h : s.createNodesOneByOne items = .ok (q, ids)) :
    s.createNodesOneByOne (items ++ [(label, properties)]) = (do
      let (q, id) ← q.createNodeIn label properties
      return (q, ids ++ [id])) := by
  rw [createNodesOneByOne] at h ⊢
  rw [List.foldlM_append, h, Except.ok_bind, List.foldlM_cons]
  exact bind_pure (m := Except BknError) _

theorem putNodes_oneByOne {items : List (String × Properties)} {start : ℕ}
    {t : GraphStore × List NodeId} (hne : items ≠ [])
    (hc : s.beforeFirstNodes.counter nextNodeIdKey = .ok start)
    (hlt : start + items.length < 2 ^ 64)
    (h : items.zipIdx.foldlM (fun (s, ids) ((label, properties), i) ↦ do
      let id : NodeId := ⟨UInt64.ofNat (start + i)⟩
      return (← s.putNode id ⟨label, properties⟩, ids ++ [id]))
        (s.beforeFirstNodes.withCounter nextNodeIdKey (start + items.length), []) = .ok t) :
    s.createNodesOneByOne items = .ok t := by
  -- the bulk store keeps its counter, and the other one trails it
  have hrun := Except.foldlM_induction (fun done (t : GraphStore × List NodeId) ↦
    t.1.withCounter nextNodeIdKey (start + items.length) = t.1 ∧
      ∃ q, s.createNodesOneByOne (done.map Prod.fst) = .ok (q, t.2) ∧
        Trails nextNodeIdKey start done.length q.beforeFirstNodes t.1 ∧
        (done ≠ [] → q = t.1.withCounter nextNodeIdKey (start + done.length))) h
    ⟨withCounter_withCounter .., s, rfl, Trails.first hc _, fun h ↦ absurd rfl h⟩ (by
      rintro done ⟨⟨label, properties⟩, i⟩ ⟨b, ids⟩ t' hpre ⟨hb, q, hq, htrails, -⟩ hstep
      obtain ⟨hitem, rfl⟩ := zipIdx_prefix hpre
      have hle : done.length < items.length := (List.getElem?_eq_some_iff.mp hitem).1
      obtain ⟨b', hput, heq⟩ := Except.bind_eq_ok.mp hstep
      obtain rfl := Except.ok.inj heq
      have hput' : ∀ n, (b.withCounter nextNodeIdKey n).putNode
          ⟨UInt64.ofNat (start + done.length)⟩ ⟨label, properties⟩ =
            .ok (b'.withCounter nextNodeIdKey n) := by
        intro n
        rw [putNode_withCounter, hput]
        rfl
      have hb' : b'.withCounter nextNodeIdKey (start + items.length) = b' := by
        have := hput' (start + items.length)
        rw [hb, hput] at this
        exact (Except.ok.inj this).symm
      refine ⟨hb', b'.withCounter nextNodeIdKey (start + done.length + 1), ?_, ?_, fun _ ↦ ?_⟩
      · rw [List.map_append, List.map_singleton, createNodesOneByOne_append s _ _ _ hq,
          createNodeIn]
        dsimp only
        rw [htrails (by omega)]
        dsimp only [Except.ok_bind]
        rw [hput']
        rfl
      · rw [List.length_append, List.length_singleton, beforeFirstNodes_withCounter]
        exact Trails.later b' nextNodeIdKey start (done.length + 1)
      · rw [List.length_append, List.length_singleton]
        rfl)
  obtain ⟨hb, q, hq, -, heq⟩ := hrun
  have hlen : items.zipIdx.length = items.length := List.length_zipIdx
  rw [hlen, hb] at heq
  rw [heq (by simpa using hne), List.zipIdx_map_fst] at hq
  exact hq

/-- **Nodes created in bulk are the nodes created one after another**, with the same identifiers and
the same tables. -/
theorem createNodesBulkIn_oneByOne {items : List (String × Properties)} {ids : List NodeId}
    (h : s.createNodesBulkIn items = .ok (s', ids)) : s.createNodesOneByOne items = .ok (s', ids) := by
  rw [createNodesBulkIn] at h
  split_ifs at h with hempty
  · rw [List.isEmpty_iff.mp hempty]
    exact h
  have hne : items ≠ [] := by simpa using hempty
  obtain ⟨⟨b, start⟩, hres, h⟩ := Except.bind_eq_ok.mp h
  obtain ⟨hc, hlt, rfl, -⟩ := reserveIds_eq_ok (by simpa using hne) hres
  exact putNodes_oneByOne hne hc hlt h

theorem createEdgesOneByOne_append (s : GraphStore)
    (items : List (NodeId × String × NodeId × Properties)) (src : NodeId) (edgeType : String)
    (dst : NodeId) (properties : Properties) {q : GraphStore} {ids : List EdgeId}
    (h : s.createEdgesOneByOne items = .ok (q, ids)) :
    s.createEdgesOneByOne (items ++ [(src, edgeType, dst, properties)]) = (do
      let (q, id) ← q.createEdgeIn src edgeType dst properties
      return (q, ids ++ [id])) := by
  rw [createEdgesOneByOne] at h ⊢
  rw [List.foldlM_append, h, Except.ok_bind, List.foldlM_cons]
  exact bind_pure (m := Except BknError) _

theorem putEdges_oneByOne {items : List (NodeId × String × NodeId × Properties)} {start : ℕ}
    {t : GraphStore × List EdgeId × List NodeId} (hne : items ≠ [])
    (hc : s.counter nextEdgeIdKey = .ok start) (hlt : start + items.length < 2 ^ 64)
    (h : items.zipIdx.foldlM (fun (s, ids, verified) ((src, edgeType, dst, properties), i) ↦ do
      let verified ← s.verifyNode verified src
      let verified ← s.verifyNode verified dst
      let id : EdgeId := ⟨UInt64.ofNat (start + i)⟩
      return (s.putEdge id ⟨src, dst, edgeType, properties⟩, ids ++ [id], verified))
        (s.withCounter nextEdgeIdKey (start + items.length), [], []) = .ok t) :
    s.createEdgesOneByOne items = .ok (t.1, t.2.1) := by
  -- no edge touches the nodes, and those that were verified are among them
  have hrun := Except.foldlM_induction (fun done (t : GraphStore × List EdgeId × List NodeId) ↦
    t.1.withCounter nextEdgeIdKey (start + items.length) = t.1 ∧
      (∀ i ∈ t.2.2, (t.1.getNodeIn i).isSome) ∧
      ∃ q, s.createEdgesOneByOne (done.map Prod.fst) = .ok (q, t.2.1) ∧ q.nodes = t.1.nodes ∧
        Trails nextEdgeIdKey start done.length q t.1 ∧
        (done ≠ [] → q = t.1.withCounter nextEdgeIdKey (start + done.length))) h
    ⟨withCounter_withCounter .., by simp, s, rfl, rfl, Trails.first hc _, fun h ↦ absurd rfl h⟩ (by
      rintro done ⟨⟨src, edgeType, dst, properties⟩, i⟩ ⟨b, ids, verified⟩ t' hpre
        ⟨hb, hver, q, hq, hnodes, htrails, -⟩ hstep
      obtain ⟨hitem, rfl⟩ := zipIdx_prefix hpre
      have hle : done.length < items.length := (List.getElem?_eq_some_iff.mp hitem).1
      obtain ⟨v₁, hv₁, hstep⟩ := Except.bind_eq_ok.mp hstep
      obtain ⟨v₂, hv₂, heq⟩ := Except.bind_eq_ok.mp hstep
      obtain rfl := Except.ok.inj heq
      obtain ⟨hsrc, hver₁⟩ := verifyNode_eq_ok hver hv₁
      obtain ⟨hdst, hver₂⟩ := verifyNode_eq_ok hver₁ hv₂
      rw [getNodeIn, ← hnodes] at hsrc hdst
      refine ⟨?_, hver₂, (b.withCounter nextEdgeIdKey (start + done.length + 1)).putEdge
        ⟨UInt64.ofNat (start + done.length)⟩ ⟨src, dst, edgeType, properties⟩, ?_, rfl, ?_,
        fun _ ↦ ?_⟩
      · dsimp only
        rw [← putEdge_withCounter, hb]
      · rw [List.map_append, List.map_singleton, createEdgesOneByOne_append s _ _ _ _ _ hq,
          createEdgeIn, Except.guardOr, if_pos hsrc, Except.guardOr, if_pos hdst, Except.ok_bind,
          Except.ok_bind, htrails (by omega)]
        rfl
      · rw [List.length_append, List.length_singleton]
        exact Trails.later (b.putEdge _ _) nextEdgeIdKey start (done.length + 1)
      · rw [List.length_append, List.length_singleton]
        rfl)
  obtain ⟨hb, -, q, hq, -, -, heq⟩ := hrun
  have hlen : items.zipIdx.length = items.length := List.length_zipIdx
  rw [hlen, hb] at heq
  rw [heq (by simpa using hne), List.zipIdx_map_fst] at hq
  exact hq

/-- **Edges created in bulk are the edges created one after another**, with the same identifiers and
the same tables. -/
theorem createEdgesBulkIn_oneByOne {items : List (NodeId × String × NodeId × Properties)}
    {ids : List EdgeId} (h : s.createEdgesBulkIn items = .ok (s', ids)) :
    s.createEdgesOneByOne items = .ok (s', ids) := by
  rw [createEdgesBulkIn] at h
  split_ifs at h with hempty
  · rw [List.isEmpty_iff.mp hempty]
    exact h
  have hne : items ≠ [] := by simpa using hempty
  obtain ⟨⟨b, start⟩, hres, h⟩ := Except.bind_eq_ok.mp h
  obtain ⟨⟨u, ids', verified⟩, hloop, heq⟩ := Except.bind_eq_ok.mp h
  obtain ⟨rfl, rfl⟩ := Prod.mk.inj (Except.ok.inj heq)
  obtain ⟨hc, hlt, rfl, -⟩ := reserveIds_eq_ok (by simpa using hne) hres
  exact putEdges_oneByOne hne hc hlt hloop

/-! ## What is stored -/

/-- Identifier by identifier, the records of the items are stored. -/
def StoredUnder {α ι ρ : Type} (record : α → ρ) (get : ι → Option ρ) (items : List α)
    (ids : List ι) : Prop :=
  ids.length = items.length ∧
    ∀ (i : ℕ) (a : α), items[i]? = some a → ∃ id, ids[i]? = some id ∧ get id = some (record a)

theorem StoredUnder.snoc {α ι ρ : Type} {record : α → ρ} {get get' : ι → Option ρ} {items : List α}
    {ids : List ι} {a : α} {id : ι} (h : StoredUnder record get items ids) (hid : id ∉ ids)
    (hnew : get' id = some (record a)) (hold : ∀ i, i ≠ id → get' i = get i) :
    StoredUnder record get' (items ++ [a]) (ids ++ [id]) := by
  obtain ⟨hlen, hget⟩ := h
  refine ⟨by rw [List.length_append, List.length_append, hlen]; rfl, fun i b hb ↦ ?_⟩
  rcases lt_or_ge i items.length with hi | hi
  · rw [List.getElem?_append_left hi] at hb
    obtain ⟨j, hj, hstored⟩ := hget i b hb
    refine ⟨j, by rw [List.getElem?_append_left (hlen.symm ▸ hi), hj], ?_⟩
    rw [hold j, hstored]
    rintro rfl
    exact hid (List.mem_of_getElem? hj)
  · rw [List.getElem?_append_right hi, List.getElem?_singleton] at hb
    split_ifs at hb with h0
    obtain rfl := Option.some.inj hb
    obtain rfl : i = items.length := by omega
    exact ⟨id, by rw [← hlen, List.getElem?_concat_length], hnew⟩

theorem getNodeIn_putNode {id : NodeId} {record : NodeRecord} (h : s.putNode id record = .ok s')
    (i : NodeId) : s'.getNodeIn i = if i = id then some record else s.getNodeIn i := by
  rw [putNode, onInsert, Except.bind_eq_ok] at h
  obtain ⟨k, -, h⟩ := h
  obtain ⟨ps, -, h⟩ := Except.bind_eq_ok.mp h
  have hnodes : s'.nodes = s.nodes.insert (nodeKey id) record := by
    refine Except.foldlM_invariant
      (fun t : GraphStore ↦ t.nodes = s.nodes.insert (nodeKey id) record) h rfl ?_
    intro p _ t t' ht hstep
    obtain ⟨entry, -, heq⟩ := Except.bind_eq_ok.mp hstep
    rw [← Except.ok.inj heq, ← ht]
    cases entry <;> rfl
  rw [getNodeIn, hnodes]
  exact get?_insert_nodeKey i

/-- The nodes created in bulk. -/
theorem createNodesBulkIn_storedUnder {items : List (String × Properties)} {ids : List NodeId}
    (h : s.createNodesBulkIn items = .ok (s', ids)) :
    StoredUnder (fun a : String × Properties ↦ NodeRecord.mk a.1 a.2) s'.getNodeIn items ids := by
  rw [createNodesBulkIn] at h
  split_ifs at h with hempty
  · obtain ⟨-, rfl⟩ := Prod.mk.inj (Except.ok.inj h)
    rw [List.isEmpty_iff.mp hempty]
    exact ⟨rfl, fun i a ha ↦ by simp at ha⟩
  obtain ⟨⟨b, start⟩, hres, h⟩ := Except.bind_eq_ok.mp h
  obtain ⟨-, hlt, -, -⟩ := reserveIds_eq_ok (by simpa using hempty) hres
  have hrun := Except.foldlM_induction (fun done (t : GraphStore × List NodeId) ↦
    (∀ id ∈ t.2, id.id.toNat < start + done.length) ∧
      StoredUnder (fun a : String × Properties ↦ NodeRecord.mk a.1 a.2) t.1.getNodeIn
        (done.map Prod.fst) t.2) h ⟨by simp, rfl, fun i a ha ↦ by simp at ha⟩ (by
      rintro done ⟨⟨label, properties⟩, i⟩ ⟨b, ids⟩ t' hpre ⟨hbelow, hstored⟩ hstep
      obtain ⟨hitem, rfl⟩ := zipIdx_prefix hpre
      have hle : done.length < items.length := (List.getElem?_eq_some_iff.mp hitem).1
      have hval : (UInt64.ofNat (start + done.length)).toNat = start + done.length :=
        toNat_of_lt (by omega)
      obtain ⟨b', hput, heq⟩ := Except.bind_eq_ok.mp hstep
      obtain rfl := Except.ok.inj heq
      have hget := getNodeIn_putNode hput
      refine ⟨fun id hid ↦ ?_, ?_⟩
      · rw [List.length_append, List.length_singleton]
        rcases List.mem_append.mp hid with hid | hid
        · exact lt_trans (hbelow id hid) (by omega)
        · rw [List.mem_singleton.mp hid, hval]
          omega
      · rw [List.map_append, List.map_singleton]
        refine hstored.snoc (fun hmem ↦ ?_) ((hget _).trans (if_pos rfl))
          fun j hj ↦ (hget j).trans (if_neg hj)
        exact absurd (hbelow _ hmem) (by rw [hval]; exact lt_irrefl _))
  rw [List.zipIdx_map_fst] at hrun
  exact hrun.2

/-- The edges created in bulk, among unchanged nodes. -/
theorem createEdgesBulkIn_storedUnder {items : List (NodeId × String × NodeId × Properties)}
    {ids : List EdgeId} (h : s.createEdgesBulkIn items = .ok (s', ids)) :
    s'.nodes = s.nodes ∧
      StoredUnder (fun a : NodeId × String × NodeId × Properties ↦
        EdgeRecord.mk a.1 a.2.2.1 a.2.1 a.2.2.2) s'.getEdgeIn items ids := by
  rw [createEdgesBulkIn] at h
  split_ifs at h with hempty
  · obtain ⟨rfl, rfl⟩ := Prod.mk.inj (Except.ok.inj h)
    rw [List.isEmpty_iff.mp hempty]
    exact ⟨rfl, rfl, fun i a ha ↦ by simp at ha⟩
  obtain ⟨⟨b, start⟩, hres, h⟩ := Except.bind_eq_ok.mp h
  obtain ⟨⟨u, ids', verified⟩, hloop, heq⟩ := Except.bind_eq_ok.mp h
  obtain ⟨rfl, rfl⟩ := Prod.mk.inj (Except.ok.inj heq)
  obtain ⟨-, hlt, rfl, -⟩ := reserveIds_eq_ok (by simpa using hempty) hres
  have hrun := Except.foldlM_induction (fun done (t : GraphStore × List EdgeId × List NodeId) ↦
    t.1.nodes = s.nodes ∧ (∀ id ∈ t.2.1, id.id.toNat < start + done.length) ∧
      StoredUnder (fun a : NodeId × String × NodeId × Properties ↦
        EdgeRecord.mk a.1 a.2.2.1 a.2.1 a.2.2.2) t.1.getEdgeIn (done.map Prod.fst) t.2.1) hloop
    ⟨rfl, by simp, rfl, fun i a ha ↦ by simp at ha⟩ (by
      rintro done ⟨⟨src, edgeType, dst, properties⟩, i⟩ ⟨b, ids, verified⟩ t' hpre
        ⟨hnodes, hbelow, hstored⟩ hstep
      obtain ⟨hitem, rfl⟩ := zipIdx_prefix hpre
      have hle : done.length < items.length := (List.getElem?_eq_some_iff.mp hitem).1
      have hval : (UInt64.ofNat (start + done.length)).toNat = start + done.length :=
        toNat_of_lt (by omega)
      obtain ⟨v₁, -, hstep⟩ := Except.bind_eq_ok.mp hstep
      obtain ⟨v₂, -, heq⟩ := Except.bind_eq_ok.mp hstep
      obtain rfl := Except.ok.inj heq
      refine ⟨hnodes, fun id hid ↦ ?_, ?_⟩
      · rw [List.length_append, List.length_singleton]
        rcases List.mem_append.mp hid with hid | hid
        · exact lt_trans (hbelow id hid) (by omega)
        · rw [List.mem_singleton.mp hid, hval]
          omega
      · rw [List.map_append, List.map_singleton]
        refine hstored.snoc (fun hmem ↦ ?_) ((getEdgeIn_putEdge _).trans (if_pos rfl))
          fun j hj ↦ (getEdgeIn_putEdge j).trans (if_neg hj)
        exact absurd (hbelow _ hmem) (by rw [hval]; exact lt_irrefl _))
  rw [List.zipIdx_map_fst] at hrun
  exact ⟨hrun.1, hrun.2.2⟩

end GraphStore
