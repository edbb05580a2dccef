import Bkndb.Graph.Entries

/-!
# The graph invariant

What holds between the physical tables of the graph layer: the adjacency tables and the two indexes
hold exactly the rows that follow from the records, the endpoints of an edge exist, and the counters
are ahead of every identifier. Each part depends on a few of the tables, so that an operation has to
re-establish only the parts it touches.

## How it is used

* `StoreInvariant` in the module on runs is what users of the graph may rely on; `Consistent` is
  the same in terms of single rows and entries, as the proofs need it.
* A part is kept by an operation that leaves its tables alone (the lemmas `congr`), so most proofs
  about an operation are about one or two parts.
* `Consistent` speaks of every edge type that fits its length field. Runs with longer types keep
  the part of it that concerns the nodes.
-/

namespace GraphStore

open Graph

variable {s s' : GraphStore}

/-! ## The parts -/

/-- A property index exists for a pair. -/
def Registered (s : GraphStore) (label property : String) : Prop :=
  ∃ reg, registryKey label property = .ok reg ∧ s.metaTable.contains reg = true

/-- The adjacency tables hold the rows of the edges. -/
structure EdgesOk (s : GraphStore) : Prop where
  /-- Every key is the key of an edge. -/
  edgeKey : ∀ k, s.edges.contains k = true → ∃ e, k = edgeKey e
  /-- Every type fits its length field. -/
  shortType : ∀ e r, s.getEdgeIn e = some r → ShortType r.edgeType
  /-- The outgoing rows. -/
  adjOut : ∀ k, s.adjOut.contains k = true ↔
    ∃ e r, s.getEdgeIn e = some r ∧ k = adjOutKey r.src r.edgeType r.dst e
  /-- The incoming rows. -/
  adjIn : ∀ k, s.adjIn.contains k = true ↔
    ∃ e r, s.getEdgeIn e = some r ∧ k = adjInKey r.dst r.edgeType r.src e

/-- The label index holds the entries of the nodes. -/
structure LabelsOk (s : GraphStore) : Prop where
  /-- Every key is the key of a node. -/
  nodeKey : ∀ k, s.nodes.contains k = true → ∃ id, k = nodeKey id
  /-- Every label fits its length field. -/
  shortLabel : ∀ id r, s.getNodeIn id = some r → ShortName r.label
  /-- The entries. -/
  nodeLabels : ∀ k, s.nodeLabels.contains k = true ↔
    ∃ id r, s.getNodeIn id = some r ∧ labelKey r.label id = .ok k

/-- The registry holds keys of pairs only. -/
def RegistryOk (s : GraphStore) : Prop :=
  ∀ k, s.metaTable.contains k = true → propIndexPrefix <+: k →
    ∃ label property, registryKey label property = .ok k

/-- A node has an entry `k` in a registered property index. -/
def PropKey (s : GraphStore) (k : Bytes) : Prop :=
  ∃ id r property, s.getNodeIn id = some r ∧ s.Registered r.label property ∧
    propEntry r.label property (r.properties.get? property) id = .ok (some k)

/-- The property index holds the entries of the nodes. -/
def PropsOk (s : GraphStore) : Prop := ∀ k, s.nodeProps.contains k = true ↔ s.PropKey k

/-- Both endpoints of every edge exist. -/
def EndpointsOk (s : GraphStore) : Prop :=
  ∀ e r, s.getEdgeIn e = some r → (s.getNodeIn r.src).isSome ∧ (s.getNodeIn r.dst).isSome

/-- The node counter is ahead of every node. -/
def NodeIdsOk (s : GraphStore) : Prop :=
  ∃ n, s.counter nextNodeIdKey = .ok n ∧ ∀ id, (s.getNodeIn id).isSome → id.id.toNat < n

/-- The edge counter is ahead of every edge. -/
def EdgeIdsOk (s : GraphStore) : Prop :=
  ∃ n, s.counter nextEdgeIdKey = .ok n ∧ ∀ e, (s.getEdgeIn e).isSome → e.id.toNat < n

/-- The graph invariant. -/
structure Consistent (s : GraphStore) : Prop where
  edges : s.EdgesOk
  labels : s.LabelsOk
  registry : s.RegistryOk
  props : s.PropsOk
  endpoints : s.EndpointsOk
  nodeIds : s.NodeIdsOk
  edgeIds : s.EdgeIdsOk

/-! ## Frames -/

theorem EdgesOk.congr (h : s.EdgesOk) (he : s'.edges = s.edges) (ho : s'.adjOut = s.adjOut)
    (hi : s'.adjIn = s.adjIn) : s'.EdgesOk := by
  refine ⟨he ▸ h.edgeKey, ?_, ?_, ?_⟩ <;> simp only [getEdgeIn, he, ho, hi]
  · exact h.shortType
  · exact h.adjOut
  · exact h.adjIn

theorem LabelsOk.congr (h : s.LabelsOk) (hn : s'.nodes = s.nodes)
    (hl : s'.nodeLabels = s.nodeLabels) : s'.LabelsOk := by
  refine ⟨hn ▸ h.nodeKey, ?_, ?_⟩ <;> simp only [getNodeIn, hn, hl]
  · exact h.shortLabel
  · exact h.nodeLabels

theorem registered_congr (h : ∀ k, propIndexPrefix <+: k →
    (s'.metaTable.contains k = true ↔ s.metaTable.contains k = true)) (label property : String) :
    s'.Registered label property ↔ s.Registered label property := by
  refine exists_congr fun reg ↦ and_congr_right fun hreg ↦ ?_
  obtain ⟨-, rfl⟩ := registryKey_eq_ok.mp hreg
  exact h _ (List.prefix_append _ _)

theorem RegistryOk.congr (h : s.RegistryOk) (hm : ∀ k, propIndexPrefix <+: k →
    (s'.metaTable.contains k = true ↔ s.metaTable.contains k = true)) : s'.RegistryOk :=
  fun k hk hp ↦ h k ((hm k hp).mp hk) hp

theorem propKey_congr (hn : s'.nodes = s.nodes) (hm : ∀ k, propIndexPrefix <+: k →
    (s'.metaTable.contains k = true ↔ s.metaTable.contains k = true)) (k : Bytes) :
    s'.PropKey k ↔ s.PropKey k := by
  simp only [PropKey, registered_congr hm, getNodeIn, hn]

theorem PropsOk.congr (h : s.PropsOk) (hn : s'.nodes = s.nodes)
    (hp : s'.nodeProps = s.nodeProps) (hm : ∀ k, propIndexPrefix <+: k →
    (s'.metaTable.contains k = true ↔ s.metaTable.contains k = true)) : s'.PropsOk := by
  intro k
  rw [hp, h k, propKey_congr hn hm]

/-! ## Metadata

The keys of `meta` belong to different parts of the engine. None of them starts with the prefix of
the registry but those of the registry, and writing one leaves the others. -/

theorem not_isPrefix_nextNodeIdKey : ¬propIndexPrefix <+: nextNodeIdKey := by decide +kernel

theorem not_isPrefix_nextEdgeIdKey : ¬propIndexPrefix <+: nextEdgeIdKey := by decide +kernel

theorem not_isPrefix_labelIndexMarker : ¬propIndexPrefix <+: labelIndexMarker := by decide +kernel

theorem contains_insert_of_not_isPrefix {m : OrdMap Bytes Bytes} {key k v : Bytes}
    (hkey : ¬propIndexPrefix <+: key) (hk : propIndexPrefix <+: k) :
    (m.insert key v).contains k = true ↔ m.contains k = true := by
  rw [OrdMap.contains_insert]
  refine ⟨?_, .inr⟩
  rintro (rfl | h)
  · exact absurd hk hkey
  · exact h

theorem counter_congr {key : Bytes} (h : s'.metaTable.get? key = s.metaTable.get? key) :
    s'.counter key = s.counter key := by rw [counter, counter, h]

theorem NodeIdsOk.congr (h : s.NodeIdsOk) (hn : s'.nodes = s.nodes)
    (hm : s'.metaTable.get? nextNodeIdKey = s.metaTable.get? nextNodeIdKey) : s'.NodeIdsOk := by
  obtain ⟨n, hc, hlt⟩ := h
  exact ⟨n, (counter_congr hm).trans hc, fun id hid ↦ hlt id (by rwa [getNodeIn, hn] at hid)⟩

theorem EdgeIdsOk.congr (h : s.EdgeIdsOk) (he : s'.edges = s.edges)
    (hm : s'.metaTable.get? nextEdgeIdKey = s.metaTable.get? nextEdgeIdKey) : s'.EdgeIdsOk := by
  obtain ⟨n, hc, hlt⟩ := h
  exact ⟨n, (counter_congr hm).trans hc, fun id hid ↦ hlt id (by rwa [getEdgeIn, he] at hid)⟩

theorem Consistent.insertMeta (h : s.Consistent) {key v : Bytes}
    (hkey : ¬propIndexPrefix <+: key) (hn : key ≠ nextNodeIdKey) (he : key ≠ nextEdgeIdKey) :
    ({ s with metaTable := s.metaTable.insert key v } : GraphStore).Consistent where
  edges := h.edges.congr rfl rfl rfl
  labels := h.labels.congr rfl rfl
  registry := h.registry.congr fun _ ↦ contains_insert_of_not_isPrefix hkey
  props := h.props.congr rfl rfl fun _ ↦ contains_insert_of_not_isPrefix hkey
  endpoints := h.endpoints
  nodeIds := h.nodeIds.congr rfl (OrdMap.get?_insert_of_ne _ _ hn.symm)
  edgeIds := h.edgeIds.congr rfl (OrdMap.get?_insert_of_ne _ _ he.symm)

theorem Consistent.beforeFirstNodes (h : s.Consistent) : s.beforeFirstNodes.Consistent := by
  rw [GraphStore.beforeFirstNodes]
  split
  · exact h.insertMeta not_isPrefix_labelIndexMarker (by decide +kernel) (by decide +kernel)
  · exact h

/-- A reservation returns the old counter and leaves it `count` further. -/
theorem reserveIds_eq_ok {key : Bytes} {count start : ℕ} (hcount : count ≠ 0)
    (h : s.reserveIds key count = .ok (s', start)) :
    s.counter key = .ok start ∧ start + count < 2 ^ 64 ∧
      s' = { s with metaTable := s.metaTable.insert key (Bytes.be 8 (start + count)) } ∧
      s'.counter key = .ok (start + count) := by
  rw [reserveIds, if_neg hcount] at h
  simp only [Except.bind_eq_ok] at h
  obtain ⟨current, hc, next, hadd, hs⟩ := h
  obtain ⟨hlt, rfl⟩ := checkedAdd_eq_ok.mp hadd
  obtain ⟨rfl, rfl⟩ : { s with metaTable := s.metaTable.insert key (Bytes.be 8 (current + count)) }
      = s' ∧ current = start := by simpa [pure, Except.pure] using hs
  refine ⟨hc, hlt, rfl, ?_⟩
  rw [counter]
  simp only [OrdMap.get?_insert_self, Bytes.length_be, if_true]
  rw [Bytes.ofBe_be_of_lt hlt]

theorem Consistent.reserveNodeIds (h : s.Consistent) {count start : ℕ} (hcount : count ≠ 0)
    (hr : s.reserveIds nextNodeIdKey count = .ok (s', start)) : s'.Consistent := by
  obtain ⟨hc, -, rfl, hc'⟩ := reserveIds_eq_ok hcount hr
  obtain ⟨n, hn, hlt⟩ := h.nodeIds
  obtain rfl : start = n := by simpa [hc] using hn
  have hkey := not_isPrefix_nextNodeIdKey
  refine ⟨h.edges.congr rfl rfl rfl, h.labels.congr rfl rfl,
    h.registry.congr fun _ ↦ contains_insert_of_not_isPrefix hkey,
    h.props.congr rfl rfl fun _ ↦ contains_insert_of_not_isPrefix hkey, h.endpoints,
    ⟨start + count, hc', fun id hid ↦ lt_of_lt_of_le (hlt id hid) (by omega)⟩,
    h.edgeIds.congr rfl (OrdMap.get?_insert_of_ne _ _ (by decide +kernel))⟩

theorem Consistent.reserveEdgeIds (h : s.Consistent) {count start : ℕ} (hcount : count ≠ 0)
    (hr : s.reserveIds nextEdgeIdKey count = .ok (s', start)) : s'.Consistent := by
  obtain ⟨hc, -, rfl, hc'⟩ := reserveIds_eq_ok hcount hr
  obtain ⟨n, hn, hlt⟩ := h.edgeIds
  obtain rfl : start = n := by simpa [hc] using hn
  have hkey := not_isPrefix_nextEdgeIdKey
  refine ⟨h.edges.congr rfl rfl rfl, h.labels.congr rfl rfl,
    h.registry.congr fun _ ↦ contains_insert_of_not_isPrefix hkey,
    h.props.congr rfl rfl fun _ ↦ contains_insert_of_not_isPrefix hkey, h.endpoints,
    h.nodeIds.congr rfl (OrdMap.get?_insert_of_ne _ _ (by decide +kernel)),
    ⟨start + count, hc', fun id hid ↦ lt_of_lt_of_le (hlt id hid) (by omega)⟩⟩

end GraphStore
