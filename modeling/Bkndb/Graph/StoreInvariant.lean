import Bkndb.Graph.Run

/-!
# The graph store invariant over runs

Every operation keeps the invariant of a run, so every run from an empty database ends in a state
where the six tables and the counters agree.

The proof is by induction over the operations of the run, with `Ok` as the invariant. The
operations that create records use up a reservation, the others keep the counters; an operation
that fails drops its transaction, so nothing needs to be known of the state it would have left.
-/

namespace GraphRun

open Graph GraphStore

variable {r r' : GraphRun}

/-! ## One operation -/

theorem Ok.createNode (hr : r.Ok) {label : String} {properties : Properties}
    (h : r.apply (.createNode label properties) = .ok r') : r'.Ok := by
  obtain ⟨⟨store, id⟩, hop, heq⟩ := Except.bind_eq_ok.mp h
  obtain rfl := Except.ok.inj heq
  rw [createNodeIn, Except.bind_eq_ok] at hop
  obtain ⟨⟨s, n⟩, hres, hput⟩ := hop
  obtain ⟨t, ht, heq⟩ := Except.bind_eq_ok.mp hput
  obtain ⟨rfl, rfl⟩ := Prod.mk.inj (Except.ok.inj heq)
  refine @Ok.putNodes r hr [(label, properties)] (List.cons_ne_nil _ _) s n
    (t, [⟨UInt64.ofNat n⟩]) hres ?_
  simp only [List.zipIdx_cons, List.zipIdx_nil, List.foldlM_cons, List.foldlM_nil, add_zero, ht]
  rfl

theorem Ok.createEdge (hr : r.Ok) {src dst : NodeId} {edgeType : String} {properties : Properties}
    (hshort : ShortType edgeType) (h : r.apply (.createEdge src edgeType dst properties) = .ok r') :
    r'.Ok := by
  obtain ⟨⟨store, id⟩, hop, heq⟩ := Except.bind_eq_ok.mp h
  obtain rfl := Except.ok.inj heq
  simp only [createEdgeIn, Except.bind_eq_ok, Except.guardOr_eq_ok] at hop
  obtain ⟨⟨⟩, hsrc, ⟨⟩, hdst, ⟨s, n⟩, hres, hput⟩ := hop
  obtain ⟨rfl, rfl⟩ := Prod.mk.inj (Except.ok.inj hput)
  have hnodes : s.nodes = r.store.nodes := by
    obtain ⟨-, -, rfl, -⟩ := reserveIds_eq_ok one_ne_zero hres
    rfl
  have hverify : ∀ {v : List NodeId} {i : NodeId}, (r.store.nodes.get? (nodeKey i)).isSome →
      ∃ v', s.verifyNode v i = .ok v' := by
    intro v i hi
    rw [verifyNode, hnodes, if_pos hi]
    split_ifs
    · exact ⟨_, rfl⟩
    · exact ⟨_, rfl⟩
  obtain ⟨v₁, hv₁⟩ := hverify (v := []) hsrc
  obtain ⟨v₂, hv₂⟩ := hverify (v := v₁) hdst
  refine @Ok.putEdges r hr [(src, edgeType, dst, properties)] (List.cons_ne_nil _ _)
    (by simpa using hshort) s n (_, [⟨UInt64.ofNat n⟩], v₂) hres ?_
  simp only [List.zipIdx_cons, List.zipIdx_nil, List.foldlM_cons, List.foldlM_nil, add_zero, hv₁,
    hv₂, Except.ok_bind]
  rfl

theorem Ok.createNodesBulk (hr : r.Ok) {nodes : List (String × Properties)}
    (h : r.apply (.createNodesBulk nodes) = .ok r') : r'.Ok := by
  obtain ⟨⟨store, ids⟩, hop, heq⟩ := Except.bind_eq_ok.mp h
  obtain rfl := Except.ok.inj heq
  rw [createNodesBulkIn] at hop
  split_ifs at hop with hempty
  · obtain ⟨rfl, rfl⟩ := Prod.mk.inj (Except.ok.inj hop)
    simpa using hr
  obtain ⟨⟨s, start⟩, hres, hloop⟩ := Except.bind_eq_ok.mp hop
  exact hr.putNodes (by simpa using hempty) hres hloop

theorem Ok.createEdgesBulk (hr : r.Ok) {edges : List (NodeId × String × NodeId × Properties)}
    (hshort : ∀ e ∈ edges, ShortType e.2.1) (h : r.apply (.createEdgesBulk edges) = .ok r') :
    r'.Ok := by
  obtain ⟨⟨store, ids⟩, hop, heq⟩ := Except.bind_eq_ok.mp h
  obtain rfl := Except.ok.inj heq
  rw [createEdgesBulkIn] at hop
  split_ifs at hop with hempty
  · obtain ⟨rfl, rfl⟩ := Prod.mk.inj (Except.ok.inj hop)
    simpa using hr
  obtain ⟨⟨s, start⟩, hres, hop⟩ := Except.bind_eq_ok.mp hop
  obtain ⟨⟨t, ids', v⟩, hloop, heq⟩ := Except.bind_eq_ok.mp hop
  obtain ⟨rfl, rfl⟩ := Prod.mk.inj (Except.ok.inj heq)
  exact hr.putEdges (by simpa using hempty) hshort hres hloop

theorem Ok.cascadeDelete (hr : r.Ok) {root : NodeId} {edgeType : String}
    (h : r.apply (.cascadeDelete root edgeType) = .ok r') : r'.Ok := by
  obtain ⟨⟨s, deleted⟩, hop, heq⟩ := Except.bind_eq_ok.mp h
  obtain rfl := Except.ok.inj heq
  simp only [cascadeDeleteIn, Except.bind_eq_ok] at hop
  obtain ⟨-, -, toDelete, -, t, ht, heq⟩ := hop
  obtain ⟨rfl, -⟩ := Prod.mk.inj (Except.ok.inj heq)
  obtain ⟨hcons, hmeta⟩ := hr.consistent.deleteNodes ht
  exact hr.of_store hcons (by rw [hmeta]) (by rw [hmeta])

/-- **Every operation keeps the invariant of a run.** -/
theorem Ok.apply (hr : r.Ok) {op : GraphOp} (hshort : op.ShortEdges) (h : r.apply op = .ok r') :
    r'.Ok := by
  cases op with
  | createNode label properties => exact hr.createNode h
  | createNodesBulk nodes => exact hr.createNodesBulk h
  | createEdge src edgeType dst properties => exact hr.createEdge hshort h
  | createEdgesBulk edges => exact hr.createEdgesBulk hshort h
  | updateNodeProperties id mutate =>
    obtain ⟨s, hop, heq⟩ := Except.bind_eq_ok.mp h
    obtain rfl := Except.ok.inj heq
    have hold : ∃ old, r.store.getNodeIn id = some old := by
      rw [updateNodePropertiesIn, Except.bind_eq_ok] at hop
      obtain ⟨old, hold, -⟩ := hop
      exact ⟨old, Except.ofOption_eq_ok.mp hold⟩
    obtain ⟨old, hold⟩ := hold
    obtain ⟨s', hs', hcons, -, -, hmeta⟩ := updateNodePropertiesIn_spec hr.consistent hold
    obtain rfl := Except.ok.inj (hs'.symm.trans hop)
    exact hr.of_store hcons (by rw [hmeta]) (by rw [hmeta])
  | updateEdgeProperties edge mutate =>
    obtain ⟨s, hop, heq⟩ := Except.bind_eq_ok.mp h
    obtain rfl := Except.ok.inj heq
    have hmeta : s.metaTable = r.store.metaTable := by
      rw [updateEdgePropertiesIn, Except.bind_eq_ok] at hop
      obtain ⟨record, -, heq⟩ := hop
      rw [← Except.ok.inj heq]
    exact hr.of_store (hr.consistent.updateEdgePropertiesIn hop) (by rw [hmeta]) (by rw [hmeta])
  | deleteEdge edge =>
    obtain rfl := Except.ok.inj h
    have hmeta : (r.store.deleteEdgeIn edge).1.metaTable = r.store.metaTable := by
      rw [deleteEdgeIn]
      split <;> rfl
    exact hr.of_store (hr.consistent.deleteEdgeIn edge) (by rw [hmeta]) (by rw [hmeta])
  | deleteNode id =>
    obtain ⟨s, hop, heq⟩ := Except.bind_eq_ok.mp h
    obtain rfl := Except.ok.inj heq
    obtain ⟨t, ht, hdel⟩ := deleteNodeIn_spec hr.consistent id
    obtain rfl := Except.ok.inj (ht.symm.trans hop)
    exact hr.of_store hdel.consistent (by rw [hdel.metaTable]) (by rw [hdel.metaTable])
  | cascadeDelete root edgeType => exact hr.cascadeDelete h
  | createPropertyIndex label property =>
    obtain ⟨⟨s, b⟩, hop, heq⟩ := Except.bind_eq_ok.mp h
    obtain rfl := Except.ok.inj heq
    obtain ⟨hcons, hmeta⟩ := hr.consistent.createPropertyIndexIn hop
    exact hr.of_store hcons (hmeta _ not_isPrefix_nextNodeIdKey)
      (hmeta _ not_isPrefix_nextEdgeIdKey)
  | dropPropertyIndex label property =>
    obtain ⟨⟨s, b⟩, hop, heq⟩ := Except.bind_eq_ok.mp h
    obtain rfl := Except.ok.inj heq
    obtain ⟨hcons, hmeta⟩ := hr.consistent.dropPropertyIndexIn hop
    exact hr.of_store hcons (hmeta _ not_isPrefix_nextNodeIdKey)
      (hmeta _ not_isPrefix_nextEdgeIdKey)
  | rebuildIndexes =>
    obtain ⟨s, hop, heq⟩ := Except.bind_eq_ok.mp h
    obtain rfl := Except.ok.inj heq
    obtain ⟨hcons, hmeta⟩ := hr.consistent.rebuildIndexesIn hop
    exact hr.of_store hcons (hmeta _ (by decide +kernel)) (hmeta _ (by decide +kernel))

/-! ## Runs -/

theorem ok_empty : ({} : GraphRun).Ok := by
  refine ⟨⟨⟨?_, ?_, ?_, ?_⟩, ⟨?_, ?_, ?_⟩, ?_, ?_, ?_, ⟨1, rfl, ?_⟩, ⟨1, rfl, ?_⟩⟩,
    ⟨⟨1, rfl, by simp⟩, .nil⟩, ⟨⟨1, rfl, by simp⟩, .nil⟩⟩ <;>
    simp [getEdgeIn, getNodeIn, RegistryOk, PropsOk, PropKey, EndpointsOk]

/-- A committed transaction keeps the invariant, a dropped one changes nothing. -/
theorem Ok.transact (hr : r.Ok) {ops : List GraphOp} (hshort : ∀ op ∈ ops, op.ShortEdges) :
    (r.transact ops).Ok := by
  rw [GraphRun.transact]
  split
  · rename_i r' h
    exact Except.foldlM_invariant Ok h hr fun op hop s s' hs hstep ↦ hs.apply (hshort op hop) hstep
  · exact hr

theorem ok_run {txs : List (List GraphOp)} (hshort : ∀ ops ∈ txs, ∀ op ∈ ops, op.ShortEdges) :
    (run txs).Ok := by
  rw [run]
  generalize hr : ({} : GraphRun) = r
  have hok : r.Ok := hr ▸ ok_empty
  clear hr
  induction txs generalizing r with
  | nil => exact hok
  | cons ops txs ih =>
    exact ih (fun ops' h ↦ hshort ops' (List.mem_cons_of_mem _ h)) _
      (hok.transact (hshort ops List.mem_cons_self))

/-- What holds between the tables of a store, and between its counters and the identifiers handed
out. -/
structure StoreInvariant (r : GraphRun) : Prop where
  /-- An edge record exists exactly with its outgoing and its incoming row. -/
  adjacency : ∀ e src edgeType dst, ShortType edgeType →
    ((∃ record, r.store.getEdgeIn e = some record ∧ record.src = src ∧
      record.edgeType = edgeType ∧ record.dst = dst) ↔
        r.store.adjOut.contains (adjOutKey src edgeType dst e) = true) ∧
    (r.store.adjOut.contains (adjOutKey src edgeType dst e) = true ↔
      r.store.adjIn.contains (adjInKey dst edgeType src e) = true)
  /-- Every outgoing row is the row of an edge. -/
  adjOut : ∀ k, r.store.adjOut.contains k = true → ∃ e record,
    r.store.getEdgeIn e = some record ∧ k = adjOutKey record.src record.edgeType record.dst e
  /-- Every incoming row is the row of an edge. -/
  adjIn : ∀ k, r.store.adjIn.contains k = true → ∃ e record,
    r.store.getEdgeIn e = some record ∧ k = adjInKey record.dst record.edgeType record.src e
  /-- Both endpoints of an edge exist. -/
  endpoints : ∀ e record, r.store.getEdgeIn e = some record →
    (r.store.getNodeIn record.src).isSome ∧ (r.store.getNodeIn record.dst).isSome
  /-- Node identifiers are below the counter and handed out once. -/
  nodeIds : (∃ n, r.store.counter nextNodeIdKey = .ok n ∧ ∀ id ∈ r.nodeIds, id.id.toNat < n) ∧
    r.nodeIds.Nodup
  /-- Edge identifiers are below the counter and handed out once. -/
  edgeIds : (∃ n, r.store.counter nextEdgeIdKey = .ok n ∧ ∀ id ∈ r.edgeIds, id.id.toNat < n) ∧
    r.edgeIds.Nodup
  /-- Every node has its label entry. -/
  label : ∀ id record, r.store.getNodeIn id = some record →
    ∃ k, labelKey record.label id = .ok k ∧ r.store.nodeLabels.contains k = true
  /-- Every label entry is that of a node. -/
  labelKeys : ∀ k, r.store.nodeLabels.contains k = true →
    ∃ id record, r.store.getNodeIn id = some record ∧ labelKey record.label id = .ok k
  /-- Every node with an indexable value has its entry in a registered index. -/
  prop : ∀ label property id record v, r.store.Registered label property →
    r.store.getNodeIn id = some record → record.label = label →
    record.properties.get? property = some v → Indexable v →
    ∃ k, propEntry label property (some v) id = .ok (some k) ∧
      r.store.nodeProps.contains k = true
  /-- Every property entry is that of a node with an indexable value. -/
  propKeys : ∀ k, r.store.nodeProps.contains k = true → ∃ label property id record v,
    r.store.Registered label property ∧ r.store.getNodeIn id = some record ∧
      record.label = label ∧ record.properties.get? property = some v ∧ Indexable v ∧
      propEntry label property (some v) id = .ok (some k)

theorem Ok.adjacency (hr : r.Ok) (e : EdgeId) (src dst : NodeId) {edgeType : String}
    (ht : ShortType edgeType) {table : OrdMap Bytes Unit}
    (key : NodeId → String → NodeId → EdgeId → Bytes)
    (hkey : ∀ {a b c d t u i j}, ShortType t → ShortType u →
      (key a t b i = key c u d j → a = c ∧ t = u ∧ b = d ∧ i = j))
    (htable : ∀ k, table.contains k = true ↔ ∃ e record, r.store.getEdgeIn e = some record ∧
      k = key record.src record.edgeType record.dst e) :
    (∃ record, r.store.getEdgeIn e = some record ∧ record.src = src ∧
      record.edgeType = edgeType ∧ record.dst = dst) ↔
        table.contains (key src edgeType dst e) = true := by
  rw [htable]
  constructor
  · rintro ⟨record, hget, rfl, rfl, rfl⟩
    exact ⟨e, record, hget, rfl⟩
  · rintro ⟨e', record, hget, hk⟩
    obtain ⟨rfl, rfl, rfl, rfl⟩ := hkey ht (hr.consistent.edges.shortType e' record hget) hk
    exact ⟨record, hget, rfl, rfl, rfl⟩

/-- **The graph store invariant.** After every run from an empty database whose edge types fit
their length field, the adjacency tables, the indexes and the counters agree with the records. -/
theorem store_invariant_of_run (txs : List (List GraphOp))
    (hshort : ∀ ops ∈ txs, ∀ op ∈ ops, op.ShortTypes) : StoreInvariant (run txs) := by
  have hr := ok_run fun ops hops op hop ↦ (hshort ops hops op hop).shortEdges
  have hs := hr.consistent
  refine ⟨fun e src edgeType dst ht ↦ ?_, fun k ↦ (hs.edges.adjOut k).mp,
    fun k ↦ (hs.edges.adjIn k).mp, hs.endpoints, ?_, ?_, fun id record hget ↦ ?_,
    fun k ↦ (hs.labels.nodeLabels k).mp, ?_, ?_⟩
  · have hout := hr.adjacency e src dst ht adjOutKey
      (fun ht hu ↦ (encodeAdjKey_inj ht hu).mp) hs.edges.adjOut
    have hin := hr.adjacency e src dst ht
      (fun src t dst e ↦ adjInKey dst t src e)
      (fun ht hu hk ↦ by
        obtain ⟨h1, h2, h3, h4⟩ := (encodeAdjKey_inj ht hu).mp hk
        exact ⟨h3, h2, h1, h4⟩) hs.edges.adjIn
    exact ⟨hout, hout.symm.trans hin⟩
  · obtain ⟨⟨n, hn, hlt⟩, hnodup⟩ := hr.nodeIds
    exact ⟨⟨n, hn, fun id hid ↦ hlt _ (List.mem_map_of_mem hid)⟩, hnodup.of_map _⟩
  · obtain ⟨⟨n, hn, hlt⟩, hnodup⟩ := hr.edgeIds
    exact ⟨⟨n, hn, fun id hid ↦ hlt _ (List.mem_map_of_mem hid)⟩, hnodup.of_map _⟩
  · have hk : labelKey record.label id = .ok (Bytes.lenPrefixed record.label.utf8 ++ nodeKey id) :=
      labelKey_eq_ok.mpr ⟨hs.labels.shortLabel id record hget, rfl⟩
    exact ⟨_, hk, (hs.labels.nodeLabels _).mpr ⟨id, record, hget, hk⟩⟩
  · rintro label property id record v hreg hget rfl hv hindex
    obtain ⟨encoded, henc⟩ := indexValueKey_isSome.mpr hindex
    obtain ⟨k, hk⟩ : ∃ k, propEntry record.label property (some v) id = .ok (some k) :=
      ⟨_, propEntry_eq_some.mpr ⟨v, encoded, rfl, henc, hreg.shortNames, rfl⟩⟩
    refine ⟨k, hk, (hs.props k).mpr ⟨id, record, property, hget, hreg, ?_⟩⟩
    rwa [hv]
  · intro k hk
    obtain ⟨id, record, property, hget, hreg, he⟩ := (hs.props k).mp hk
    obtain ⟨v, encoded, hv, henc, -⟩ := propEntry_eq_some.mp he
    refine ⟨record.label, property, id, record, v, hreg, hget, rfl, hv,
      indexValueKey_isSome.mp ⟨encoded, henc⟩, ?_⟩
    rwa [hv] at he

/-- Two people, one of whom knows himself, an index on their names, and the deletion of one. -/
theorem store_invariant_of_run_people :
    let person : GraphOp := .createNode "Person" (OrdMap.empty.insert "name" (.str "Ana"))
    let txs : List (List GraphOp) := [[person, person],
      [.createEdge ⟨1⟩ "KNOWS" ⟨2⟩ ∅, .createEdge ⟨2⟩ "KNOWS" ⟨2⟩ ∅],
      [.createPropertyIndex "Person" "name"], [.deleteNode ⟨1⟩], [.createEdge ⟨9⟩ "KNOWS" ⟨2⟩ ∅]]
    StoreInvariant (run txs) := by
  refine store_invariant_of_run _ ?_
  have hknows : ShortType "KNOWS" := by decide +kernel
  simp [GraphOp.ShortTypes, hknows]

end GraphRun
