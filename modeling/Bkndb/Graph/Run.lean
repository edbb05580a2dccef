import Bkndb.Graph.Manage

/-!
# Runs over the graph

A run is a sequence of transactions, each a sequence of operations. A transaction in which an
operation fails is dropped with everything it did, the identifiers it was given included. The run
keeps the identifiers handed out by its committed transactions, oldest first.

## Reservations

An operation reserves as many identifiers as it needs before it stores anything. The invariant `Ok`
of a run therefore includes that everything handed out is below the counter and was handed out
once; it is kept by a reservation, and the loops that store the items then use up what was
reserved.

## Conditions on runs

`ShortTypes` and `ShortEdges` are about the types in an operation: all of them, or those given to
edges. A traversal or a deletion may be asked for any type.
-/

/-- An operation of a write transaction. The closures of the updates are arbitrary functions. -/
inductive GraphOp where
  | createNode (label : String) (properties : Properties)
  | createNodesBulk (nodes : List (String × Properties))
  | createEdge (src : NodeId) (edgeType : String) (dst : NodeId) (properties : Properties)
  | createEdgesBulk (edges : List (NodeId × String × NodeId × Properties))
  | updateNodeProperties (id : NodeId) (mutate : Properties → Properties)
  | updateEdgeProperties (edge : EdgeId) (mutate : Properties → Properties)
  | deleteEdge (edge : EdgeId)
  | deleteNode (id : NodeId)
  | cascadeDelete (root : NodeId) (containmentEdgeType : String)
  | createPropertyIndex (label property : String)
  | dropPropertyIndex (label property : String)
  | rebuildIndexes

/-- Every edge type given to an operation fits its length field. -/
def GraphOp.ShortTypes : GraphOp → Prop
  | createEdge _ edgeType _ _ => Graph.ShortType edgeType
  | createEdgesBulk edges => ∀ e ∈ edges, Graph.ShortType e.2.1
  | cascadeDelete _ edgeType => Graph.ShortType edgeType
  | _ => True

/-- Every edge type given to an edge fits its length field. -/
def GraphOp.ShortEdges : GraphOp → Prop
  | createEdge _ edgeType _ _ => Graph.ShortType edgeType
  | createEdgesBulk edges => ∀ e ∈ edges, Graph.ShortType e.2.1
  | _ => True

theorem GraphOp.ShortTypes.shortEdges {op : GraphOp} (h : op.ShortTypes) : op.ShortEdges := by
  cases op with
  | cascadeDelete root edgeType => trivial
  | _ => exact h

/-- A store and the identifiers handed out so far. -/
structure GraphRun where
  store : GraphStore := {}
  nodeIds : List NodeId := []
  edgeIds : List EdgeId := []

namespace GraphRun

open Graph

/-- One operation. -/
def apply (r : GraphRun) : GraphOp → Except BknError GraphRun
  | .createNode label properties => do
    let (store, id) ← r.store.createNodeIn label properties
    return { r with store, nodeIds := r.nodeIds ++ [id] }
  | .createNodesBulk nodes => do
    let (store, ids) ← r.store.createNodesBulkIn nodes
    return { r with store, nodeIds := r.nodeIds ++ ids }
  | .createEdge src edgeType dst properties => do
    let (store, id) ← r.store.createEdgeIn src edgeType dst properties
    return { r with store, edgeIds := r.edgeIds ++ [id] }
  | .createEdgesBulk edges => do
    let (store, ids) ← r.store.createEdgesBulkIn edges
    return { r with store, edgeIds := r.edgeIds ++ ids }
  | .updateNodeProperties id mutate => do
    return { r with store := ← r.store.updateNodePropertiesIn id mutate }
  | .updateEdgeProperties edge mutate => do
    return { r with store := ← r.store.updateEdgePropertiesIn edge mutate }
  | .deleteEdge edge => .ok { r with store := (r.store.deleteEdgeIn edge).1 }
  | .deleteNode id => do return { r with store := ← r.store.deleteNodeIn id }
  | .cascadeDelete root edgeType => do
    return { r with store := (← r.store.cascadeDeleteIn root edgeType).1 }
  | .createPropertyIndex label property => do
    return { r with store := (← r.store.createPropertyIndexIn label property).1 }
  | .dropPropertyIndex label property => do
    return { r with store := (← r.store.dropPropertyIndexIn label property).1 }
  | .rebuildIndexes => do return { r with store := ← r.store.rebuildIndexesIn }

/-- One transaction: committed if every operation succeeds, else dropped. -/
def transact (r : GraphRun) (ops : List GraphOp) : GraphRun :=
  match ops.foldlM apply r with
  | .ok r' => r'
  | .error _ => r

/-- A run from an empty database. -/
def run (txs : List (List GraphOp)) : GraphRun := txs.foldl transact {}

/-! ## Identifiers -/

/-- The identifiers handed out are below the counter and distinct. -/
structure HandedOut (counter : Except BknError ℕ) (ids : List UInt64) : Prop where
  below : ∃ n, counter = .ok n ∧ ∀ id ∈ ids, id.toNat < n
  nodup : ids.Nodup

/-- The invariant of a run. -/
structure Ok (r : GraphRun) : Prop where
  consistent : r.store.Consistent
  nodeIds : HandedOut (r.store.counter nextNodeIdKey) (r.nodeIds.map NodeId.id)
  edgeIds : HandedOut (r.store.counter nextEdgeIdKey) (r.edgeIds.map EdgeId.id)

/-- The identifiers of a reservation. -/
def reserved (start count : ℕ) : List UInt64 :=
  (List.range count).map fun i ↦ UInt64.ofNat (start + i)

theorem toNat_of_lt {n : ℕ} (h : n < 2 ^ 64) : (UInt64.ofNat n).toNat = n := by
  rw [UInt64.toNat_ofNat']
  exact Nat.mod_eq_of_lt h

/-- A reservation hands out new identifiers. -/
theorem HandedOut.reserve {ids : List UInt64} {start count : ℕ}
    (h : HandedOut (.ok start) ids) (hlt : start + count < 2 ^ 64) :
    HandedOut (.ok (start + count)) (ids ++ reserved start count) := by
  obtain ⟨⟨n, hn, hbelow⟩, hnodup⟩ := h
  obtain rfl := Except.ok.inj hn
  have hval : ∀ id ∈ reserved start count, start ≤ id.toNat ∧ id.toNat < start + count := by
    intro id hid
    obtain ⟨i, hi, rfl⟩ := List.mem_map.mp hid
    rw [List.mem_range] at hi
    rw [toNat_of_lt (by omega)]
    omega
  refine ⟨⟨_, rfl, fun id hid ↦ ?_⟩, ?_⟩
  · rcases List.mem_append.mp hid with hid | hid
    · exact lt_of_lt_of_le (hbelow id hid) (by omega)
    · exact (hval id hid).2
  · refine List.nodup_append.mpr ⟨hnodup, ?_, ?_⟩
    · refine List.nodup_range.map_on fun i hi j hj hij ↦ ?_
      rw [List.mem_range] at hi hj
      have := congrArg UInt64.toNat hij
      rw [toNat_of_lt (by omega), toNat_of_lt (by omega)] at this
      omega
    · rintro a ha b hb rfl
      exact absurd (hbelow a ha) (not_lt.mpr (hval a hb).1)

end GraphRun

namespace GraphStore

open Graph GraphRun

variable {s s' : GraphStore}

/-! ## Creation -/

theorem reserveIds_counter_ne {key other : Bytes} {count start : ℕ} (hcount : count ≠ 0)
    (hne : other ≠ key) (h : s.reserveIds key count = .ok (s', start)) :
    s'.counter other = s.counter other := by
  obtain ⟨-, -, rfl, -⟩ := reserveIds_eq_ok hcount h
  exact counter_congr (OrdMap.get?_insert_of_ne _ _ hne)

theorem beforeFirstNodes_counter {key : Bytes} (hne : key ≠ labelIndexMarker) :
    s.beforeFirstNodes.counter key = s.counter key := by
  rw [beforeFirstNodes]
  split_ifs
  · exact counter_congr (OrdMap.get?_insert_of_ne _ _ hne)
  · rfl

theorem zipIdx_prefix {α : Type} {l : List α} {done : List (α × ℕ)} {a : α} {i : ℕ}
    (h : done ++ [(a, i)] <+: l.zipIdx) : l[done.length]? = some a ∧ i = done.length := by
  obtain ⟨rest, hrest⟩ := h
  have hget : l.zipIdx[done.length]? = some (a, i) := by
    rw [← hrest]
    simp
  rw [List.getElem?_zipIdx, Option.map_eq_some_iff] at hget
  obtain ⟨b, hb, heq⟩ := hget
  obtain ⟨rfl, hi⟩ := Prod.mk.inj heq
  exact ⟨hb, by simpa using hi.symm⟩

/-- The loop that stores nodes under the reserved identifiers. -/
theorem putNodes_spec {items : List (String × Properties)} {start : ℕ} {t : GraphStore × List NodeId}
    (hs : s.Consistent) (hc : s.counter nextNodeIdKey = .ok (start + items.length))
    (hlt : start + items.length < 2 ^ 64)
    (hbelow : ∀ id, (s.getNodeIn id).isSome → id.id.toNat < start)
    (h : items.zipIdx.foldlM (fun (s, ids) ((label, properties), i) ↦ do
      let id : NodeId := ⟨UInt64.ofNat (start + i)⟩
      return (← s.putNode id ⟨label, properties⟩, ids ++ [id])) (s, []) = .ok t) :
    t.1.Consistent ∧ t.1.metaTable = s.metaTable ∧
      t.2.map NodeId.id = reserved start items.length := by
  have hrun := Except.foldlM_induction (fun done (t : GraphStore × List NodeId) ↦
    t.1.Consistent ∧ t.1.metaTable = s.metaTable ∧
      t.2.map NodeId.id = reserved start done.length ∧
      ∀ id, (t.1.getNodeIn id).isSome → id.id.toNat < start + done.length) h
    ⟨hs, rfl, rfl, hbelow⟩ (by
      rintro done ⟨⟨label, properties⟩, i⟩ ⟨u, ids⟩ t' hpre ⟨hu, hmeta, hids, hlive⟩ hstep
      obtain ⟨hitem, rfl⟩ := zipIdx_prefix hpre
      have hle : done.length < items.length := (List.getElem?_eq_some_iff.mp hitem).1
      have hval : (UInt64.ofNat (start + done.length)).toNat = start + done.length :=
        toNat_of_lt (by omega)
      obtain ⟨v, hv, heq⟩ := Except.bind_eq_ok.mp hstep
      obtain rfl := Except.ok.inj heq
      have hnew : u.getNodeIn ⟨UInt64.ofNat (start + done.length)⟩ = none := by
        by_contra hsome
        have := hlive _ (Option.isSome_iff_ne_none.mpr hsome)
        simp only [hval] at this
        omega
      obtain ⟨w, hw, hcons, hget, -, hmeta'⟩ := putNode_spec hu hnew
        ((counter_congr (by rw [hmeta])).trans hc) (by simp only [hval]; omega)
        (shortName_of_putNode hv)
      obtain rfl := Except.ok.inj (hw.symm.trans hv)
      refine ⟨hcons, hmeta'.trans hmeta, ?_, fun id hid ↦ ?_⟩
      · rw [List.map_append, hids, List.length_append, List.length_singleton, reserved, reserved,
          List.range_succ, List.map_append]
        rfl
      · rw [List.length_append, List.length_singleton]
        rw [hget] at hid
        split_ifs at hid with heq
        · rw [heq, hval]
          omega
        · have := hlive id hid
          omega)
  rw [List.length_zipIdx] at hrun
  exact ⟨hrun.1, hrun.2.1, hrun.2.2.1⟩

theorem verifyNode_eq_ok {verified verified' : List NodeId} {id : NodeId}
    (hv : ∀ i ∈ verified, (s.getNodeIn i).isSome) (h : s.verifyNode verified id = .ok verified') :
    (s.getNodeIn id).isSome ∧ ∀ i ∈ verified', (s.getNodeIn i).isSome := by
  rw [verifyNode] at h
  split_ifs at h with hmem hnode
  · obtain rfl := Except.ok.inj h
    exact ⟨hv id hmem, hv⟩
  · obtain rfl := Except.ok.inj h
    refine ⟨hnode, fun i hi ↦ ?_⟩
    rcases List.mem_cons.mp hi with rfl | hi
    · exact hnode
    · exact hv i hi

/-- The loop that stores edges under the reserved identifiers. -/
theorem putEdges_spec {items : List (NodeId × String × NodeId × Properties)} {start : ℕ}
    {t : GraphStore × List EdgeId × List NodeId} (hs : s.Consistent)
    (hc : s.counter nextEdgeIdKey = .ok (start + items.length))
    (hlt : start + items.length < 2 ^ 64)
    (hbelow : ∀ e, (s.getEdgeIn e).isSome → e.id.toNat < start)
    (hshort : ∀ e ∈ items, ShortType e.2.1)
    (h : items.zipIdx.foldlM (fun (s, ids, verified) ((src, edgeType, dst, properties), i) ↦ do
      let verified ← s.verifyNode verified src
      let verified ← s.verifyNode verified dst
      let id : EdgeId := ⟨UInt64.ofNat (start + i)⟩
      return (s.putEdge id ⟨src, dst, edgeType, properties⟩, ids ++ [id], verified)) (s, [], []) =
        .ok t) :
    t.1.Consistent ∧ t.1.metaTable = s.metaTable ∧
      t.2.1.map EdgeId.id = reserved start items.length := by
  have hrun := Except.foldlM_induction
    (fun done (t : GraphStore × List EdgeId × List NodeId) ↦
      t.1.Consistent ∧ t.1.metaTable = s.metaTable ∧
        t.2.1.map EdgeId.id = reserved start done.length ∧
        (∀ e, (t.1.getEdgeIn e).isSome → e.id.toNat < start + done.length) ∧
        ∀ i ∈ t.2.2, (t.1.getNodeIn i).isSome) h ⟨hs, rfl, rfl, hbelow, by simp⟩ (by
      rintro done ⟨⟨src, edgeType, dst, properties⟩, i⟩ ⟨u, ids, verified⟩ t' hpre
        ⟨hu, hmeta, hids, hlive, hver⟩ hstep
      obtain ⟨hitem, rfl⟩ := zipIdx_prefix hpre
      have hle : done.length < items.length := (List.getElem?_eq_some_iff.mp hitem).1
      have htype : ShortType edgeType := hshort _ (List.mem_of_getElem? hitem)
      have hval : (UInt64.ofNat (start + done.length)).toNat = start + done.length :=
        toNat_of_lt (by omega)
      obtain ⟨v₁, hv₁, hstep⟩ := Except.bind_eq_ok.mp hstep
      obtain ⟨v₂, hv₂, heq⟩ := Except.bind_eq_ok.mp hstep
      obtain rfl := Except.ok.inj heq
      obtain ⟨hsrc, hver₁⟩ := verifyNode_eq_ok hver hv₁
      obtain ⟨hdst, hver₂⟩ := verifyNode_eq_ok hver₁ hv₂
      have hnew : u.getEdgeIn ⟨UInt64.ofNat (start + done.length)⟩ = none := by
        by_contra hsome
        have := hlive _ (Option.isSome_iff_ne_none.mpr hsome)
        simp only [hval] at this
        omega
      refine ⟨hu.putEdge hnew ((counter_congr (by rw [hmeta])).trans hc)
        (by simp only [hval]; omega) htype hsrc hdst, hmeta, ?_, fun e he ↦ ?_, hver₂⟩
      · rw [List.map_append, hids, List.length_append, List.length_singleton, reserved, reserved,
          List.range_succ, List.map_append]
        rfl
      · rw [List.length_append, List.length_singleton]
        rw [getEdgeIn_putEdge] at he
        split_ifs at he with heq
        · rw [heq, hval]
          omega
        · have := hlive e he
          omega)
  rw [List.length_zipIdx] at hrun
  exact ⟨hrun.1, hrun.2.1, hrun.2.2.1⟩

end GraphStore

namespace GraphRun

open Graph GraphStore

variable {r : GraphRun}

/-! ## Operations -/

theorem Ok.of_store (hr : r.Ok) {s : GraphStore} (hs : s.Consistent)
    (hn : s.metaTable.get? nextNodeIdKey = r.store.metaTable.get? nextNodeIdKey)
    (he : s.metaTable.get? nextEdgeIdKey = r.store.metaTable.get? nextEdgeIdKey) :
    ({ r with store := s } : GraphRun).Ok :=
  ⟨hs, (counter_congr hn).symm ▸ hr.nodeIds, (counter_congr he).symm ▸ hr.edgeIds⟩

theorem Ok.putNodes (hr : r.Ok) {items : List (String × Properties)} (hne : items ≠ [])
    {s : GraphStore} {start : ℕ} {t : GraphStore × List NodeId}
    (hres : r.store.beforeFirstNodes.reserveIds nextNodeIdKey items.length = .ok (s, start))
    (h : items.zipIdx.foldlM (fun (s, ids) ((label, properties), i) ↦ do
      let id : NodeId := ⟨UInt64.ofNat (start + i)⟩
      return (← s.putNode id ⟨label, properties⟩, ids ++ [id])) (s, []) = .ok t) :
    ({ r with store := t.1, nodeIds := r.nodeIds ++ t.2 } : GraphRun).Ok := by
  have hcount : items.length ≠ 0 := by simpa using hne
  have hb := hr.consistent.beforeFirstNodes
  have hs := hb.reserveNodeIds hcount hres
  obtain ⟨hc, hlt, hstore, hc'⟩ := reserveIds_eq_ok hcount hres
  have hbelow : ∀ id, (s.getNodeIn id).isSome → id.id.toNat < start := by
    obtain ⟨n, hn, hlive⟩ := hb.nodeIds
    obtain rfl := Except.ok.inj (hc.symm.trans hn)
    rw [hstore]
    exact hlive
  obtain ⟨ht, hmeta, hids⟩ := putNodes_spec hs hc' hlt hbelow h
  have hcounter : ∀ key, t.1.counter key = s.counter key := fun key ↦ counter_congr (by rw [hmeta])
  refine ⟨ht, ?_, ?_⟩
  · rw [hcounter, hc', List.map_append, hids]
    refine HandedOut.reserve ?_ hlt
    rw [← hc, beforeFirstNodes_counter (by decide +kernel)]
    exact hr.nodeIds
  · rw [hcounter, reserveIds_counter_ne hcount (by decide +kernel) hres,
      beforeFirstNodes_counter (by decide +kernel)]
    exact hr.edgeIds

theorem Ok.putEdges (hr : r.Ok) {items : List (NodeId × String × NodeId × Properties)}
    (hne : items ≠ []) (hshort : ∀ e ∈ items, ShortType e.2.1) {s : GraphStore} {start : ℕ}
    {t : GraphStore × List EdgeId × List NodeId}
    (hres : r.store.reserveIds nextEdgeIdKey items.length = .ok (s, start))
    (h : items.zipIdx.foldlM (fun (s, ids, verified) ((src, edgeType, dst, properties), i) ↦ do
      let verified ← s.verifyNode verified src
      let verified ← s.verifyNode verified dst
      let id : EdgeId := ⟨UInt64.ofNat (start + i)⟩
      return (s.putEdge id ⟨src, dst, edgeType, properties⟩, ids ++ [id], verified)) (s, [], []) =
        .ok t) :
    ({ r with store := t.1, edgeIds := r.edgeIds ++ t.2.1 } : GraphRun).Ok := by
  have hcount : items.length ≠ 0 := by simpa using hne
  have hs := hr.consistent.reserveEdgeIds hcount hres
  obtain ⟨hc, hlt, hstore, hc'⟩ := reserveIds_eq_ok hcount hres
  have hbelow : ∀ e, (s.getEdgeIn e).isSome → e.id.toNat < start := by
    obtain ⟨n, hn, hlive⟩ := hr.consistent.edgeIds
    obtain rfl := Except.ok.inj (hc.symm.trans hn)
    rw [hstore]
    exact hlive
  obtain ⟨ht, hmeta, hids⟩ := putEdges_spec hs hc' hlt hbelow hshort h
  have hcounter : ∀ key, t.1.counter key = s.counter key := fun key ↦ counter_congr (by rw [hmeta])
  refine ⟨ht, ?_, ?_⟩
  · rw [hcounter, reserveIds_counter_ne hcount (by decide +kernel) hres]
    exact hr.nodeIds
  · rw [hcounter, hc', List.map_append, hids]
    refine HandedOut.reserve ?_ hlt
    rw [← hc]
    exact hr.edgeIds

end GraphRun
