import Bkndb.Graph.Maintain

/-!
# Operations keep the graph invariant

One specification for each primitive change of the store: it succeeds under the invariant, keeps
it, and changes the records as it should. The operations of the source are sequences of these.

## Primitive changes

A node with its entries is stored, the properties of a node are exchanged with the entries, an edge
with its two rows is stored, and an edge is removed with its rows. Creation and deletion are loops
of these, so nothing about the invariant is proved of an operation directly.
-/

namespace GraphStore

open Graph

variable {s s' : GraphStore} {id : NodeId} {e : EdgeId}

/-! ## Nodes -/

theorem get?_insert_nodeKey {nodes : OrdMap Bytes NodeRecord} {record : NodeRecord} (i : NodeId) :
    (nodes.insert (nodeKey id) record).get? (nodeKey i) =
      if i = id then some record else nodes.get? (nodeKey i) := by
  simp only [OrdMap.get?_insert, nodeKey_inj]

theorem get?_erase_nodeKey {nodes : OrdMap Bytes NodeRecord} (i : NodeId) :
    (nodes.erase (nodeKey id)).get? (nodeKey i) =
      if i = id then none else nodes.get? (nodeKey i) := by
  simp only [OrdMap.get?_erase, nodeKey_inj]

theorem shortName_of_putNode {record : NodeRecord} (h : s.putNode id record = .ok s') :
    ShortName record.label := by
  rw [putNode, onInsert, Except.bind_eq_ok] at h
  obtain ⟨k, hk, -⟩ := h
  exact (labelKey_eq_ok.mp hk).1

/-- **A new node is stored and entered in the indexes.** -/
theorem putNode_spec {record : NodeRecord} {n : ℕ} (hs : s.Consistent)
    (hnew : s.getNodeIn id = none) (hn : s.counter nextNodeIdKey = .ok n) (hid : id.id.toNat < n)
    (hl : ShortName record.label) :
    ∃ s', s.putNode id record = .ok s' ∧ s'.Consistent ∧
      (∀ i, s'.getNodeIn i = if i = id then some record else s.getNodeIn i) ∧
      s'.edges = s.edges ∧ s'.metaTable = s.metaTable := by
  obtain ⟨k, m, hk, hins, hm⟩ := onInsert_spec id
    (s := { s with nodes := s.nodes.insert (nodeKey id) record }) hs.registry hl
  have hget : ∀ i, getNodeIn { s with
      nodes := s.nodes.insert (nodeKey id) record
      nodeLabels := s.nodeLabels.insert k ()
      nodeProps := m } i = if i = id then some record else s.getNodeIn i := get?_insert_nodeKey
  have hold : ∀ {i r}, s.getNodeIn i = some r → i ≠ id := by
    rintro i r hi rfl
    simp [hnew] at hi
  refine ⟨_, hins, ⟨hs.edges.congr rfl rfl rfl, ⟨?_, ?_, ?_⟩, hs.registry, ?_, ?_, ?_, hs.edgeIds⟩,
    hget, rfl, rfl⟩
  · intro key hkey
    rcases OrdMap.contains_insert.mp hkey with rfl | hkey
    · exact ⟨id, rfl⟩
    · exact hs.labels.nodeKey key hkey
  · intro i r hi
    rw [hget] at hi
    split_ifs at hi with h
    · exact Option.some.inj hi ▸ hl
    · exact hs.labels.shortLabel i r hi
  · intro key
    rw [OrdMap.contains_insert, hs.labels.nodeLabels]
    simp only [hget]
    constructor
    · rintro (rfl | ⟨i, r, hi, hkey⟩)
      · exact ⟨id, record, if_pos rfl, hk⟩
      · exact ⟨i, r, by rw [if_neg (hold hi), hi], hkey⟩
    · rintro ⟨i, r, hi, hkey⟩
      split_ifs at hi with h
      · obtain rfl := Option.some.inj hi
        rw [h, hk] at hkey
        exact .inl (Except.ok.inj hkey).symm
      · exact .inr ⟨i, r, hi, hkey⟩
  · intro key
    rw [hm, hs.props key]
    simp only [PropKey, hget]
    constructor
    · rintro (⟨i, r, p, hi, hreg, hkey⟩ | ⟨p, hreg, hkey⟩)
      · exact ⟨i, r, p, by rw [if_neg (hold hi), hi], hreg, hkey⟩
      · exact ⟨id, record, p, if_pos rfl, hreg, hkey⟩
    · rintro ⟨i, r, p, hi, hreg, hkey⟩
      split_ifs at hi with h
      · obtain rfl := Option.some.inj hi
        exact .inr ⟨p, hreg, h ▸ hkey⟩
      · exact .inl ⟨i, r, p, hi, hreg, hkey⟩
  · intro e r he
    simp only [hget]
    obtain ⟨h1, h2⟩ := hs.endpoints e r he
    constructor
    · split_ifs
      · rfl
      · exact h1
    · split_ifs
      · rfl
      · exact h2
  · obtain ⟨n', hn', hlt⟩ := hs.nodeIds
    obtain rfl : n = n' := by simpa [hn] using hn'
    refine ⟨n, hn, fun i hi ↦ ?_⟩
    rw [hget] at hi
    split_ifs at hi with h
    · exact h ▸ hid
    · exact hlt i hi

/-- **Updated properties are entered in the indexes.** -/
theorem updateNodePropertiesIn_spec {mutate : Properties → Properties} {old : NodeRecord}
    (hs : s.Consistent) (hold : s.getNodeIn id = some old) :
    ∃ s', s.updateNodePropertiesIn id mutate = .ok s' ∧ s'.Consistent ∧
      (∀ i, s'.getNodeIn i = if i = id then
        some { old with properties := mutate old.properties } else s.getNodeIn i) ∧
      s'.edges = s.edges ∧ s'.metaTable = s.metaTable := by
  have hl := hs.labels.shortLabel id old hold
  obtain ⟨m, hup, hm⟩ := @onUpdate_spec s id old
    { old with properties := mutate old.properties } hs.registry rfl hl
    (fun p k hreg hk ↦ (hs.props k).mpr ⟨id, old, p, hold, hreg, hk⟩)
  have hget : ∀ i, getNodeIn { s with
      nodes := s.nodes.insert (nodeKey id) { old with properties := mutate old.properties }
      nodeProps := m } i = if i = id then
        some { old with properties := mutate old.properties } else s.getNodeIn i :=
    get?_insert_nodeKey
  have hget' : s.nodes.get? (nodeKey id) = some old := hold
  refine ⟨{ s with
    nodes := s.nodes.insert (nodeKey id) { old with properties := mutate old.properties }
    nodeProps := m }, ?_, ⟨hs.edges.congr rfl rfl rfl, ⟨?_, ?_, ?_⟩, hs.registry, ?_, ?_, ?_,
      hs.edgeIds⟩, hget, rfl, rfl⟩
  · rw [updateNodePropertiesIn, hget']
    simp only [Except.ofOption, Except.ok_bind, hup]
    rfl
  · intro key hkey
    rcases OrdMap.contains_insert.mp hkey with rfl | hkey
    · exact ⟨id, rfl⟩
    · exact hs.labels.nodeKey key hkey
  · intro i r hi
    rw [hget] at hi
    split_ifs at hi with h
    · exact Option.some.inj hi ▸ hl
    · exact hs.labels.shortLabel i r hi
  · intro key
    rw [hs.labels.nodeLabels]
    simp only [hget]
    constructor
    · rintro ⟨i, r, hi, hkey⟩
      by_cases h : i = id
      · subst h
        obtain rfl := Option.some.inj (hold.symm.trans hi)
        exact ⟨i, _, if_pos rfl, hkey⟩
      · exact ⟨i, r, by rw [if_neg h, hi], hkey⟩
    · rintro ⟨i, r, hi, hkey⟩
      split_ifs at hi with h
      · obtain rfl := Option.some.inj hi
        exact ⟨i, old, h ▸ hold, hkey⟩
      · exact ⟨i, r, hi, hkey⟩
  · intro key
    rw [hm, hs.props key]
    simp only [PropKey, hget]
    constructor
    · rintro (⟨⟨i, r, p, hi, hreg, hkey⟩, hnot⟩ | ⟨p, hreg, hkey⟩)
      · have hne : i ≠ id := by
          rintro rfl
          obtain rfl := Option.some.inj (hold.symm.trans hi)
          exact hnot p hreg hkey
        exact ⟨i, r, p, by rw [if_neg hne, hi], hreg, hkey⟩
      · exact ⟨id, _, p, if_pos rfl, hreg, hkey⟩
    · rintro ⟨i, r, p, hi, hreg, hkey⟩
      split_ifs at hi with h
      · obtain rfl := Option.some.inj hi
        exact .inr ⟨p, hreg, h ▸ hkey⟩
      · refine .inl ⟨⟨i, r, p, hi, hreg, hkey⟩, fun q _ hq ↦ h ?_⟩
        exact (propEntry_inj hkey hq).2.2
  · intro e r he
    simp only [hget]
    obtain ⟨h1, h2⟩ := hs.endpoints e r he
    constructor
    · split_ifs
      · rfl
      · exact h1
    · split_ifs
      · rfl
      · exact h2
  · obtain ⟨n, hn, hlt⟩ := hs.nodeIds
    refine ⟨n, hn, fun i hi ↦ ?_⟩
    rw [hget] at hi
    split_ifs at hi with h
    · exact h ▸ hlt id (by rw [hold]; rfl)
    · exact hlt i hi

/-! ## Edges -/

theorem get?_insert_edgeKey {edges : OrdMap Bytes EdgeRecord} {record : EdgeRecord} (i : EdgeId) :
    (edges.insert (edgeKey e) record).get? (edgeKey i) =
      if i = e then some record else edges.get? (edgeKey i) := by
  simp only [OrdMap.get?_insert, edgeKey_inj]

theorem get?_erase_edgeKey {edges : OrdMap Bytes EdgeRecord} (i : EdgeId) :
    (edges.erase (edgeKey e)).get? (edgeKey i) =
      if i = e then none else edges.get? (edgeKey i) := by
  simp only [OrdMap.get?_erase, edgeKey_inj]

theorem getEdgeIn_putEdge {record : EdgeRecord} (i : EdgeId) :
    (s.putEdge e record).getEdgeIn i = if i = e then some record else s.getEdgeIn i :=
  get?_insert_edgeKey i

theorem EdgesOk.putEdge {record : EdgeRecord} (hs : s.EdgesOk) (hnew : s.getEdgeIn e = none)
    (ht : ShortType record.edgeType) : (s.putEdge e record).EdgesOk := by
  have hold : ∀ {i r}, s.getEdgeIn i = some r → i ≠ e := by
    rintro i r hi rfl
    simp [hnew] at hi
  -- the same argument for both tables: the rows of the old edges and the row of the new one
  have hrows : ∀ {table : OrdMap Bytes Unit} (key : EdgeRecord → EdgeId → Bytes),
      (∀ k, table.contains k = true ↔ ∃ i r, s.getEdgeIn i = some r ∧ k = key r i) →
      ∀ k, (table.insert (key record e) ()).contains k = true ↔
        ∃ i r, (s.putEdge e record).getEdgeIn i = some r ∧ k = key r i := by
    intro table key htable k
    rw [OrdMap.contains_insert, htable]
    simp only [getEdgeIn_putEdge]
    constructor
    · rintro (rfl | ⟨i, r, hi, rfl⟩)
      · exact ⟨e, record, if_pos rfl, rfl⟩
      · exact ⟨i, r, by rw [if_neg (hold hi), hi], rfl⟩
    · rintro ⟨i, r, hi, rfl⟩
      split_ifs at hi with h
      · obtain rfl := Option.some.inj hi
        exact .inl (h ▸ rfl)
      · exact .inr ⟨i, r, hi, rfl⟩
  refine ⟨?_, ?_, hrows (fun r i ↦ adjOutKey r.src r.edgeType r.dst i) hs.adjOut,
    hrows (fun r i ↦ adjInKey r.dst r.edgeType r.src i) hs.adjIn⟩
  · intro k hk
    rcases OrdMap.contains_insert.mp hk with rfl | hk
    · exact ⟨e, rfl⟩
    · exact hs.edgeKey k hk
  · intro i r hi
    rw [getEdgeIn_putEdge] at hi
    split_ifs at hi with h
    · exact Option.some.inj hi ▸ ht
    · exact hs.shortType i r hi

/-- **A new edge between existing nodes keeps the invariant.** -/
theorem Consistent.putEdge {record : EdgeRecord} {n : ℕ} (hs : s.Consistent)
    (hnew : s.getEdgeIn e = none) (hn : s.counter nextEdgeIdKey = .ok n) (hid : e.id.toNat < n)
    (ht : ShortType record.edgeType) (hsrc : (s.getNodeIn record.src).isSome)
    (hdst : (s.getNodeIn record.dst).isSome) : (s.putEdge e record).Consistent := by
  refine ⟨hs.edges.putEdge hnew ht, hs.labels.congr rfl rfl, hs.registry, hs.props, ?_, hs.nodeIds,
    ?_⟩
  · intro i r hi
    rw [getEdgeIn_putEdge] at hi
    split_ifs at hi with h
    · obtain rfl := Option.some.inj hi
      exact ⟨hsrc, hdst⟩
    · exact hs.endpoints i r hi
  · obtain ⟨n', hn', hlt⟩ := hs.edgeIds
    obtain rfl : n = n' := by simpa [hn] using hn'
    refine ⟨n, hn, fun i hi ↦ ?_⟩
    rw [getEdgeIn_putEdge] at hi
    split_ifs at hi with h
    · exact h ▸ hid
    · exact hlt i hi

/-- The store without an edge and its two rows. -/
def removeEdge (s : GraphStore) (e : EdgeId) (record : EdgeRecord) : GraphStore :=
  { s with
    adjOut := s.adjOut.erase (adjOutKey record.src record.edgeType record.dst e)
    adjIn := s.adjIn.erase (adjInKey record.dst record.edgeType record.src e)
    edges := s.edges.erase (edgeKey e) }

theorem getEdgeIn_removeEdge {record : EdgeRecord} (i : EdgeId) :
    (s.removeEdge e record).getEdgeIn i = if i = e then none else s.getEdgeIn i :=
  get?_erase_edgeKey i

theorem EdgesOk.removeEdge {record : EdgeRecord} (hs : s.EdgesOk)
    (he : s.getEdgeIn e = some record) : (s.removeEdge e record).EdgesOk := by
  have hrows : ∀ {table : OrdMap Bytes Unit} (key : EdgeRecord → EdgeId → Bytes),
      (∀ i r, s.getEdgeIn i = some r → key r i = key record e → i = e) →
      (∀ k, table.contains k = true ↔ ∃ i r, s.getEdgeIn i = some r ∧ k = key r i) →
      ∀ k, (table.erase (key record e)).contains k = true ↔
        ∃ i r, (s.removeEdge e record).getEdgeIn i = some r ∧ k = key r i := by
    intro table key hinj htable k
    rw [OrdMap.contains_erase, htable]
    simp only [getEdgeIn_removeEdge]
    constructor
    · rintro ⟨hne, i, r, hi, rfl⟩
      refine ⟨i, r, ?_, rfl⟩
      rw [if_neg, hi]
      rintro rfl
      obtain rfl := Option.some.inj (he.symm.trans hi)
      exact hne rfl
    · rintro ⟨i, r, hi, rfl⟩
      split_ifs at hi with h
      exact ⟨fun hk ↦ h (hinj i r hi hk), i, r, hi, rfl⟩
  have ht := hs.shortType e record he
  refine ⟨?_, ?_, hrows (fun r i ↦ adjOutKey r.src r.edgeType r.dst i) ?_ hs.adjOut,
    hrows (fun r i ↦ adjInKey r.dst r.edgeType r.src i) ?_ hs.adjIn⟩
  · intro k hk
    exact hs.edgeKey k (OrdMap.contains_erase.mp hk).2
  · intro i r hi
    rw [getEdgeIn_removeEdge] at hi
    split_ifs at hi
    exact hs.shortType i r hi
  · intro i r hi hk
    exact ((encodeAdjKey_inj (hs.shortType i r hi) ht).mp hk).2.2.2
  · intro i r hi hk
    exact ((encodeAdjKey_inj (hs.shortType i r hi) ht).mp hk).2.2.2

theorem Consistent.removeEdge {record : EdgeRecord} (hs : s.Consistent)
    (he : s.getEdgeIn e = some record) : (s.removeEdge e record).Consistent := by
  refine ⟨hs.edges.removeEdge he, hs.labels.congr rfl rfl, hs.registry, hs.props, ?_, hs.nodeIds, ?_⟩
  · intro i r hi
    rw [getEdgeIn_removeEdge] at hi
    split_ifs at hi
    exact hs.endpoints i r hi
  · obtain ⟨n, hn, hlt⟩ := hs.edgeIds
    refine ⟨n, hn, fun i hi ↦ ?_⟩
    rw [getEdgeIn_removeEdge] at hi
    split_ifs at hi
    · simp at hi
    · exact hlt i hi

theorem Consistent.deleteEdgeIn (hs : s.Consistent) (e : EdgeId) :
    (s.deleteEdgeIn e).1.Consistent := by
  rw [GraphStore.deleteEdgeIn]
  split
  · exact hs
  · rename_i record he
    exact hs.removeEdge he

/-- **Updated edge properties keep the invariant.** -/
theorem Consistent.updateEdgePropertiesIn {mutate : Properties → Properties} (hs : s.Consistent)
    (h : s.updateEdgePropertiesIn e mutate = .ok s') : s'.Consistent := by
  rw [GraphStore.updateEdgePropertiesIn, Except.bind_eq_ok] at h
  obtain ⟨record, hrec, hs'⟩ := h
  rw [Except.ofOption_eq_ok] at hrec
  obtain rfl := Except.ok.inj hs'
  set new : EdgeRecord := { record with properties := mutate record.properties } with hnew
  have hget : ∀ i, getEdgeIn { s with edges := s.edges.insert (edgeKey e) new } i =
      if i = e then some new else s.getEdgeIn i := get?_insert_edgeKey
  -- the rows depend on the endpoints and the type, which stay
  have hrows : ∀ {k : Bytes} (key : NodeId → String → NodeId → EdgeId → Bytes),
      (∃ i r, s.getEdgeIn i = some r ∧ k = key r.src r.edgeType r.dst i) ↔
        ∃ i r, (if i = e then some new else s.getEdgeIn i) = some r ∧
          k = key r.src r.edgeType r.dst i := by
    intro k key
    constructor
    · rintro ⟨i, r, hi, rfl⟩
      by_cases h : i = e
      · subst h
        obtain rfl := Option.some.inj (hrec.symm.trans hi)
        exact ⟨i, _, if_pos rfl, rfl⟩
      · exact ⟨i, r, by rw [if_neg h, hi], rfl⟩
    · rintro ⟨i, r, hi, rfl⟩
      split_ifs at hi with h
      · obtain rfl := Option.some.inj hi
        exact ⟨i, record, h ▸ hrec, rfl⟩
      · exact ⟨i, r, hi, rfl⟩
  refine ⟨⟨?_, ?_, fun k ↦ ?_, fun k ↦ ?_⟩, hs.labels.congr rfl rfl, hs.registry, hs.props, ?_,
    hs.nodeIds, ?_⟩
  · intro k hk
    rcases OrdMap.contains_insert.mp hk with rfl | hk
    · exact ⟨e, rfl⟩
    · exact hs.edges.edgeKey k hk
  · intro i r hi
    rw [hget] at hi
    split_ifs at hi with h
    · obtain rfl := Option.some.inj hi
      exact hs.edges.shortType e record hrec
    · exact hs.edges.shortType i r hi
  · simp only [hget]
    rw [hs.edges.adjOut, hrows adjOutKey]
  · simp only [hget]
    rw [hs.edges.adjIn, hrows fun src t dst i ↦ adjInKey dst t src i]
  · intro i r hi
    rw [hget] at hi
    split_ifs at hi with h
    · obtain rfl := Option.some.inj hi
      exact hs.endpoints e record hrec
    · exact hs.endpoints i r hi
  · obtain ⟨n, hn, hlt⟩ := hs.edgeIds
    refine ⟨n, hn, fun i hi ↦ ?_⟩
    rw [hget] at hi
    split_ifs at hi with h
    · exact h ▸ hlt e (by rw [getEdgeIn, hrec]; rfl)
    · exact hlt i hi

end GraphStore
