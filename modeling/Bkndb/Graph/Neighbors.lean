import Bkndb.Graph.StoreInvariant

/-!
# Edge types and neighbours

The length of an edge type is cast to its two-byte field. A type that fits decodes back from both
adjacency rows of its edge, one that does not fit is stored and decodes to something else or not at
all. As long as the types given to the edges fit, the rows of a node, and of a node and a type, are
those of the live edges, for any type that is asked for; and a deletion leaves no row of its edges.

## Main results

* `decodeAdjKey_encodeAdjKey_iff`: a row decodes to its fields exactly when its type fits.
* `edgeTypesOk_of_run`: in every state of a run an edge that was created decodes exactly when its
  type fits, and if all types of the run fit, then for every type that is asked for the neighbours
  are those of the live edges.

The type that is asked for need not fit. Its rows would lie between bounds in which no row of a
type that fits can be, so nothing is found, as it should be.
-/

namespace Graph

variable {first second node : NodeId} {t u : String} {edge : EdgeId}

/-- **A row decodes to its fields exactly when its type fits.** -/
theorem decodeAdjKey_encodeAdjKey_iff :
    decodeAdjKey (encodeAdjKey first t second edge) = .ok (first, t, second, edge) ↔
      ShortType t := by
  refine ⟨fun h ↦ ?_, decodeAdjKey_encodeAdjKey⟩
  simp only [decodeAdjKey, Except.bind_eq_ok, Except.guardOr_eq_ok, Except.ofOption_eq_ok] at h
  obtain ⟨-, -, -, hlen, t', ht', -, -, heq⟩ := h
  obtain rfl : t' = t := (Prod.mk.inj (Prod.mk.inj (Except.ok.inj heq)).2).1
  -- the type that is read is no longer than the two bytes before it say
  set field := ((encodeAdjKey first t' second edge).drop 8).take 2 with hfield
  have hread : t'.utf8.length ≤ Bytes.ofBe field := by
    rw [utf8_of_fromUtf8 ht']
    exact List.length_take_le _ _
  have htwo : field.length = 2 := by
    rw [hfield, List.length_take, List.length_drop]
    simp [encodeAdjKey, length_encodeEdgeType]
  have hlt := Bytes.ofBe_lt field
  rw [htwo] at hlt
  exact lt_of_le_of_lt hread hlt

/-- The rows between the bounds of any type are the rows of that node and type, if the types of the
rows fit. -/
theorem encodeAdjKey_mem_type_of_short (hu : ShortType u) :
    (Bound.included (adjTypePrefix node t)).Above (encodeAdjKey first u second edge) ∧
      (Bound.included (adjTypeUpperBound node t)).Below (encodeAdjKey first u second edge) ↔
      first = node ∧ u = t := by
  by_cases ht : ShortType t
  · exact encodeAdjKey_mem_type ht hu
  -- a type that does not fit is longer than the rows that its length field admits
  refine iff_of_false ?_ ?_
  · rintro ⟨hlo, hhi⟩
    obtain ⟨rest, hrest⟩ := Bytes.isPrefix_of_le_append hlo hhi
    have hkey : encodeAdjKey first u second edge = Bytes.be 8 first.id.toNat ++
        (Bytes.be 2 u.utf8.length ++ (u.utf8 ++ (Bytes.be 8 second.id.toNat ++
          Bytes.be 8 edge.id.toNat))) := by
      simp [encodeAdjKey, encodeEdgeType, Bytes.lenPrefixed]
    rw [hkey, adjTypePrefix, encodeEdgeType, Bytes.lenPrefixed, List.append_assoc,
      List.append_assoc] at hrest
    obtain ⟨-, htail⟩ := Bytes.append_inj_of_length (by simp) hrest
    obtain ⟨hfield, htail⟩ := Bytes.append_inj_of_length (by simp) htail
    have hmod := congrArg Bytes.ofBe hfield
    rw [Bytes.ofBe_be, Bytes.ofBe_be] at hmod
    have hlen := congrArg List.length htail
    simp only [List.length_append, Bytes.length_be] at hlen
    rw [ShortType] at ht hu
    omega
  · rintro ⟨-, rfl⟩
    exact ht hu

end Graph

namespace GraphStore

open Graph

variable {s s' : GraphStore} {node : NodeId} {e : EdgeId}

/-! ## Neighbours

`RowsOf` is read from either table, with the ends exchanged, so each statement about neighbours is
proved once for both directions. -/

/-- A table holds the rows of the live edges, under one end and then the other. -/
structure RowsOf (s : GraphStore) (table : OrdMap Bytes Unit) (first second : EdgeRecord → NodeId) :
    Prop where
  /-- Every type fits. -/
  shortType : ∀ e r, s.getEdgeIn e = some r → ShortType r.edgeType
  /-- The rows. -/
  rows : ∀ k, table.contains k = true ↔
    ∃ e r, s.getEdgeIn e = some r ∧ k = encodeAdjKey (first r) r.edgeType (second r) e

theorem EdgesOk.rowsOut (hs : s.EdgesOk) : s.RowsOf s.adjOut EdgeRecord.src EdgeRecord.dst :=
  ⟨hs.shortType, hs.adjOut⟩

theorem EdgesOk.rowsIn (hs : s.EdgesOk) : s.RowsOf s.adjIn EdgeRecord.dst EdgeRecord.src :=
  ⟨hs.shortType, hs.adjIn⟩

variable {table : OrdMap Bytes Unit} {first second : EdgeRecord → NodeId}

theorem RowsOf.decode (hs : s.RowsOf table first second) {k : Bytes}
    (hk : table.contains k = true) : ∃ e r, s.getEdgeIn e = some r ∧
      k = encodeAdjKey (first r) r.edgeType (second r) e ∧
        decodeAdjKey k = .ok (first r, r.edgeType, second r, e) := by
  obtain ⟨e, r, hget, rfl⟩ := (hs.rows k).mp hk
  exact ⟨e, r, hget, rfl, decodeAdjKey_encodeAdjKey (hs.shortType e r hget)⟩

theorem RowsOf.not_decode (hs : s.RowsOf table first second) (he : s.getEdgeIn e = none) {k : Bytes}
    (hk : table.contains k = true) (a : NodeId) (t : String) (b : NodeId) :
    decodeAdjKey k ≠ .ok (a, t, b, e) := by
  obtain ⟨e', r, hget, -, hdec⟩ := hs.decode hk
  rw [hdec]
  rintro heq
  obtain rfl : e' = e := (Prod.mk.inj (Prod.mk.inj (Prod.mk.inj (Except.ok.inj heq)).2).2).2
  rw [he] at hget
  cases hget

/-- Reading the rows between two bounds that the rows of some edges lie between. -/
theorem RowsOf.mapM_range {β : Type} (hs : s.RowsOf table first second) (lo hi : Bound Bytes)
    (P : EdgeRecord → Prop) (hmem : ∀ e r, s.getEdgeIn e = some r →
      (lo.Above (encodeAdjKey (first r) r.edgeType (second r) e) ∧
        hi.Below (encodeAdjKey (first r) r.edgeType (second r) e) ↔ P r))
    (read : NodeId × String × NodeId × EdgeId → β)
    (hread : ∀ e r e' r', s.getEdgeIn e = some r → s.getEdgeIn e' = some r' →
      read (first r, r.edgeType, second r, e) = read (first r', r'.edgeType, second r', e') →
        e = e') :
    ∃ l, (table.range lo hi).mapM (fun row ↦ do return read (← decodeAdjKey row.1)) =
      (.ok l : Except BknError (List β)) ∧ l.Nodup ∧ ∀ b, b ∈ l ↔ ∃ e r,
        s.getEdgeIn e = some r ∧ P r ∧ b = read (first r, r.edgeType, second r, e) := by
  obtain ⟨l, hl, hR⟩ := Except.mapM_exists (l := table.range lo hi)
    (f := fun row ↦ do return read (← decodeAdjKey row.1)) (Q := fun row b ↦ ∃ e r,
      s.getEdgeIn e = some r ∧ row.1 = encodeAdjKey (first r) r.edgeType (second r) e ∧ P r ∧
        b = read (first r, r.edgeType, second r, e)) (by
      rintro ⟨k, ⟨⟩⟩ hrow
      obtain ⟨hin, hbounds⟩ := OrdMap.mem_range.mp hrow
      obtain ⟨e, r, hget, rfl, hdec⟩ := hs.decode (OrdMap.contains_iff.mpr ⟨_, hin⟩)
      exact ⟨_, by rw [hdec]; rfl, e, r, hget, rfl, (hmem e r hget).mp hbounds, rfl⟩)
  refine ⟨l, hl, ?_, fun b ↦ ⟨fun hb ↦ ?_, ?_⟩⟩
  · refine hR.pairwise_right (table.range_sorted lo hi) ?_
    rintro ⟨k, _⟩ ⟨k', _⟩ b b' ⟨e, r, hget, hk, -, rfl⟩ ⟨e', r', hget', hk', -, rfl⟩ hlt heq
    obtain rfl := hread e r e' r' hget hget' heq
    obtain rfl := Option.some.inj (hget.symm.trans hget')
    exact absurd (hk'.trans hk.symm) (ne_of_gt hlt)
  · obtain ⟨row, -, e, r, hget, -, hP, rfl⟩ := hR.exists_left hb
    exact ⟨e, r, hget, hP, rfl⟩
  · rintro ⟨e, r, hget, hP, rfl⟩
    obtain ⟨⟨⟩, hin⟩ := OrdMap.contains_iff.mp ((hs.rows _).mpr ⟨e, r, hget, rfl⟩)
    obtain ⟨b, hb, e', r', hget', hk, -, rfl⟩ :=
      hR.exists_right (OrdMap.mem_range.mpr ⟨hin, (hmem e r hget).mpr hP⟩)
    obtain ⟨h1, h2, h3, rfl⟩ :=
      (encodeAdjKey_inj (hs.shortType e r hget) (hs.shortType e' r' hget')).mp hk
    obtain rfl := Option.some.inj (hget.symm.trans hget')
    exact hb

theorem RowsOf.neighborsIn (hs : s.RowsOf table first second) (node : NodeId) (t : String) :
    ∃ l, neighborsIn table node t = .ok l ∧ l.Nodup ∧ ∀ other e, (other, e) ∈ l ↔
      ∃ r, s.getEdgeIn e = some r ∧ first r = node ∧ r.edgeType = t ∧ second r = other := by
  obtain ⟨l, hl, hnodup, hmem⟩ := hs.mapM_range (.included (adjTypePrefix node t))
    (.included (adjTypeUpperBound node t)) (fun r ↦ first r = node ∧ r.edgeType = t)
    (fun e r hget ↦ encodeAdjKey_mem_type_of_short (hs.shortType e r hget))
    (fun row ↦ (row.2.2.1, row.2.2.2)) (fun e r e' r' _ _ heq ↦ (Prod.mk.inj heq).2)
  refine ⟨l, hl, hnodup, fun other e ↦ (hmem (other, e)).trans ?_⟩
  constructor
  · rintro ⟨e', r, hget, ⟨hfirst, htype⟩, heq⟩
    obtain ⟨rfl, rfl⟩ := Prod.mk.inj heq
    exact ⟨r, hget, hfirst, htype, rfl⟩
  · rintro ⟨r, hget, hfirst, htype, rfl⟩
    exact ⟨e, r, hget, ⟨hfirst, htype⟩, rfl⟩

theorem RowsOf.neighborsAnyIn (hs : s.RowsOf table first second) (node : NodeId) :
    ∃ l, neighborsAnyIn table node = .ok l ∧ l.Nodup ∧ ∀ t other e, (t, other, e) ∈ l ↔
      ∃ r, s.getEdgeIn e = some r ∧ first r = node ∧ r.edgeType = t ∧ second r = other := by
  obtain ⟨l, hl, hnodup, hmem⟩ := hs.mapM_range (.included (nodeKey node))
    (.stop (nextNodePrefix node)) (fun r ↦ first r = node)
    (fun e r _ ↦ encodeAdjKey_mem_node) (fun row ↦ (row.2.1, row.2.2.1, row.2.2.2))
    (fun e r e' r' _ _ heq ↦ (Prod.mk.inj (Prod.mk.inj heq).2).2)
  refine ⟨l, hl, hnodup, fun t other e ↦ (hmem (t, other, e)).trans ?_⟩
  constructor
  · rintro ⟨e', r, hget, hfirst, heq⟩
    obtain ⟨htype, heq⟩ := Prod.mk.inj heq
    obtain ⟨rfl, rfl⟩ := Prod.mk.inj heq
    exact ⟨r, hget, hfirst, htype.symm, rfl⟩
  · rintro ⟨r, hget, hfirst, rfl, rfl⟩
    exact ⟨e, r, hget, hfirst, rfl⟩

/-! ## Deletion -/

/-- Nothing is left of an edge: no record, and no row that decodes to it. -/
structure Gone (s : GraphStore) (e : EdgeId) : Prop where
  record : s.getEdgeIn e = none
  adjOut : ∀ k a t b, s.adjOut.contains k = true → decodeAdjKey k ≠ .ok (a, t, b, e)
  adjIn : ∀ k a t b, s.adjIn.contains k = true → decodeAdjKey k ≠ .ok (a, t, b, e)

theorem EdgesOk.gone (hs : s.EdgesOk) (he : s.getEdgeIn e = none) : s.Gone e :=
  ⟨he, fun _ _ _ _ hk ↦ hs.rowsOut.not_decode he hk _ _ _,
    fun _ _ _ _ hk ↦ hs.rowsIn.not_decode he hk _ _ _⟩

/-! ## Edge types -/

/-- Both adjacency tables hold a row of an edge that decodes to its fields. -/
structure Decodes (s : GraphStore) (src : NodeId) (t : String) (dst : NodeId) (e : EdgeId) :
    Prop where
  adjOut : s.adjOut.contains (adjOutKey src t dst e) = true
  decodeOut : decodeAdjKey (adjOutKey src t dst e) = .ok (src, t, dst, e)
  adjIn : s.adjIn.contains (adjInKey dst t src e) = true
  decodeIn : decodeAdjKey (adjInKey dst t src e) = .ok (dst, t, src, e)

/-- What holds for the edges of a store and for every type: the edges decode, the neighbours are the
live edges, and deletions leave nothing behind. -/
structure EdgeTypesOk (s : GraphStore) : Prop where
  /-- Every edge decodes from both tables. -/
  decodes : ∀ e r, s.getEdgeIn e = some r → s.Decodes r.src r.edgeType r.dst e
  /-- The outgoing edges of a type. -/
  neighborsOut : ∀ node t, ∃ l, s.neighborsOutIn node t = .ok l ∧ l.Nodup ∧ ∀ dst e,
    (dst, e) ∈ l ↔ ∃ r, s.getEdgeIn e = some r ∧ r.src = node ∧ r.edgeType = t ∧ r.dst = dst
  /-- The incoming edges of a type. -/
  neighborsIn : ∀ node t, ∃ l, s.neighborsInIn node t = .ok l ∧ l.Nodup ∧ ∀ src e,
    (src, e) ∈ l ↔ ∃ r, s.getEdgeIn e = some r ∧ r.dst = node ∧ r.edgeType = t ∧ r.src = src
  /-- The outgoing edges of any type. -/
  neighborsOutAny : ∀ node, ∃ l, GraphStore.neighborsAnyIn s.adjOut node = .ok l ∧ l.Nodup ∧
    ∀ t dst e, (t, dst, e) ∈ l ↔
      ∃ r, s.getEdgeIn e = some r ∧ r.src = node ∧ r.edgeType = t ∧ r.dst = dst
  /-- The incoming edges of any type. -/
  neighborsInAny : ∀ node, ∃ l, GraphStore.neighborsAnyIn s.adjIn node = .ok l ∧ l.Nodup ∧
    ∀ t src e, (t, src, e) ∈ l ↔
      ∃ r, s.getEdgeIn e = some r ∧ r.dst = node ∧ r.edgeType = t ∧ r.src = src
  /-- The deletion of a node succeeds and leaves nothing of the edges that touch it. -/
  deleteNode : ∀ id, ∃ t, s.deleteNodeIn id = .ok t ∧ ∀ e r, s.getEdgeIn e = some r →
    if r.src = id ∨ r.dst = id then t.Gone e else t.getEdgeIn e = some r
  /-- The deletion of an edge leaves nothing of it and keeps the others. -/
  deleteEdge : ∀ e, (s.deleteEdgeIn e).1.Gone e ∧
    ∀ e', e' ≠ e → (s.deleteEdgeIn e).1.getEdgeIn e' = s.getEdgeIn e'

theorem EdgesOk.decodes (hs : s.EdgesOk) {r : EdgeRecord} (he : s.getEdgeIn e = some r) :
    s.Decodes r.src r.edgeType r.dst e :=
  ⟨(hs.adjOut _).mpr ⟨e, r, he, rfl⟩, decodeAdjKey_encodeAdjKey (hs.shortType e r he),
    (hs.adjIn _).mpr ⟨e, r, he, rfl⟩, decodeAdjKey_encodeAdjKey (hs.shortType e r he)⟩

theorem getEdgeIn_deleteEdgeIn (s : GraphStore) (e e' : EdgeId) :
    (s.deleteEdgeIn e).1.getEdgeIn e' = if e' = e then none else s.getEdgeIn e' := by
  rw [deleteEdgeIn]
  split
  · rename_i he
    split_ifs with h
    · exact h ▸ he
    · rfl
  · exact getEdgeIn_removeEdge e'

/-- **In a consistent store every type is handled**, whatever is asked for. -/
theorem Consistent.edgeTypesOk (hs : s.Consistent) : s.EdgeTypesOk where
  decodes _ _ he := hs.edges.decodes he
  neighborsOut := hs.edges.rowsOut.neighborsIn
  neighborsIn := hs.edges.rowsIn.neighborsIn
  neighborsOutAny := hs.edges.rowsOut.neighborsAnyIn
  neighborsInAny := hs.edges.rowsIn.neighborsAnyIn
  deleteNode id := by
    obtain ⟨t, ht, hdel⟩ := deleteNodeIn_spec hs id
    refine ⟨t, ht, fun e r he ↦ ?_⟩
    split_ifs with htouch
    · refine hdel.consistent.edges.gone (Option.eq_none_iff_forall_ne_some.mpr fun r' hr' ↦ ?_)
      obtain ⟨he', hsrc, hdst⟩ := (hdel.edges e r').mp hr'
      obtain rfl := Option.some.inj (he.symm.trans he')
      exact htouch.elim hsrc hdst
    · exact (hdel.edges e r).mpr ⟨he, fun h ↦ htouch (.inl h), fun h ↦ htouch (.inr h)⟩
  deleteEdge e := by
    refine ⟨(hs.deleteEdgeIn e).edges.gone ?_, fun e' hne ↦ ?_⟩
    · rw [getEdgeIn_deleteEdgeIn, if_pos rfl]
    · rw [getEdgeIn_deleteEdgeIn, if_neg hne]

/-! ## Creation

The rows of an edge are there from its creation on, fitting or not; whether they decode depends on
the type alone. -/

/-- The two rows of an edge are there. -/
def HasRows (s : GraphStore) (src : NodeId) (t : String) (dst : NodeId) (e : EdgeId) : Prop :=
  s.adjOut.contains (adjOutKey src t dst e) = true ∧ s.adjIn.contains (adjInKey dst t src e) = true

/-- **Rows that are there decode exactly when their type fits.** -/
theorem HasRows.decodes_iff {src dst : NodeId} {t : String} (h : s.HasRows src t dst e) :
    s.Decodes src t dst e ↔ ShortType t :=
  ⟨fun hd ↦ decodeAdjKey_encodeAdjKey_iff.mp hd.decodeOut, fun ht ↦
    ⟨h.1, decodeAdjKey_encodeAdjKey ht, h.2, decodeAdjKey_encodeAdjKey ht⟩⟩

theorem hasRows_putEdge (s : GraphStore) (e : EdgeId) (record : EdgeRecord) :
    (s.putEdge e record).HasRows record.src record.edgeType record.dst e :=
  ⟨OrdMap.contains_insert.mpr (.inl rfl), OrdMap.contains_insert.mpr (.inl rfl)⟩

theorem HasRows.putEdge {src dst : NodeId} {t : String} (h : s.HasRows src t dst e) (e' : EdgeId)
    (record : EdgeRecord) : (s.putEdge e' record).HasRows src t dst e :=
  ⟨OrdMap.contains_insert.mpr (.inr h.1), OrdMap.contains_insert.mpr (.inr h.2)⟩

theorem hasRows_createEdgeIn {src dst : NodeId} {t : String} {properties : Properties}
    (h : s.createEdgeIn src t dst properties = .ok (s', e)) : s'.HasRows src t dst e := by
  simp only [createEdgeIn, Except.bind_eq_ok] at h
  obtain ⟨-, -, -, -, ⟨u, n⟩, -, heq⟩ := h
  obtain ⟨rfl, rfl⟩ := Prod.mk.inj (Except.ok.inj heq)
  exact hasRows_putEdge u ⟨UInt64.ofNat n⟩ ⟨src, dst, t, properties⟩

theorem hasRows_createEdgesBulkIn {items : List (NodeId × String × NodeId × Properties)}
    {ids : List EdgeId} (h : s.createEdgesBulkIn items = .ok (s', ids)) :
    List.Forall₂ (fun item e ↦ s'.HasRows item.1 item.2.1 item.2.2.1 e) items ids := by
  rw [createEdgesBulkIn] at h
  split_ifs at h with hempty
  · obtain ⟨rfl, rfl⟩ := Prod.mk.inj (Except.ok.inj h)
    rw [List.isEmpty_iff.mp hempty]
    exact .nil
  obtain ⟨⟨t, start⟩, -, h⟩ := Except.bind_eq_ok.mp h
  obtain ⟨⟨u, ids', v⟩, hloop, heq⟩ := Except.bind_eq_ok.mp h
  obtain ⟨rfl, rfl⟩ := Prod.mk.inj (Except.ok.inj heq)
  have hrun := Except.foldlM_induction
    (fun done (t : GraphStore × List EdgeId × List NodeId) ↦
      List.Forall₂ (fun item e ↦ t.1.HasRows item.1 item.2.1 item.2.2.1 e) (done.map Prod.fst) t.2.1)
    hloop .nil (by
      rintro done ⟨⟨src, edgeType, dst, properties⟩, i⟩ ⟨w, ids, verified⟩ w' - hdone hstep
      obtain ⟨v₁, -, hstep⟩ := Except.bind_eq_ok.mp hstep
      obtain ⟨v₂, -, heq⟩ := Except.bind_eq_ok.mp hstep
      rw [← Except.ok.inj heq, List.map_append]
      refine List.rel_append (hdone.imp fun item e h ↦ h.putEdge _ _) (.cons ?_ .nil)
      exact hasRows_putEdge w _ ⟨src, dst, edgeType, properties⟩)
  rwa [List.zipIdx_map_fst] at hrun

end GraphStore

namespace GraphRun

open Graph GraphStore

/-- **Edge types of any length.** In every state that a run reaches, an edge that is created decodes
from both of its rows exactly when its type fits the two bytes of its length. If the edges of the run
all have such types, every edge decodes, the neighbours along every type are the live edges, and
deletions leave nothing behind. -/
theorem edgeTypesOk_of_run (txs : List (List GraphOp)) :
    (∀ src t dst properties s e, (run txs).store.createEdgeIn src t dst properties = .ok (s, e) →
      (s.Decodes src t dst e ↔ ShortType t)) ∧
    (∀ items s ids, (run txs).store.createEdgesBulkIn items = .ok (s, ids) →
      List.Forall₂ (fun item e ↦ s.Decodes item.1 item.2.1 item.2.2.1 e ↔ ShortType item.2.1) items
        ids) ∧
    ((∀ ops ∈ txs, ∀ op ∈ ops, op.ShortEdges) → (run txs).store.EdgeTypesOk) :=
  ⟨fun _ _ _ _ _ _ h ↦ (hasRows_createEdgeIn h).decodes_iff,
    fun _ _ _ h ↦ (hasRows_createEdgesBulkIn h).imp fun _ _ hrows ↦ hrows.decodes_iff,
    fun hshort ↦ (ok_run hshort).consistent.edgeTypesOk⟩

/-- Two people who know each other. -/
theorem edgeTypesOk_people :
    let person : GraphOp := .createNode "Person" ∅
    (run [[person, person],
      [.createEdge ⟨1⟩ "KNOWS" ⟨2⟩ ∅, .createEdge ⟨2⟩ "KNOWS" ⟨1⟩ ∅]]).store.EdgeTypesOk := by
  refine (edgeTypesOk_of_run _).2.2 ?_
  have hknows : ShortType "KNOWS" := by decide +kernel
  simp [GraphOp.ShortEdges, hknows]

/-- A type of `n` bytes. -/
def longType (n : ℕ) : String := String.ofList (List.replicate n 'a')

theorem length_longType (n : ℕ) : (longType n).utf8.length = n := by
  rw [longType, String.utf8, String.toByteArray_ofList, List.utf8Encode]
  simp [show 'a'.utf8Size = 1 from rfl]

/-- A person who knows himself. -/
def selfTxs (edgeType : String) : List (List GraphOp) :=
  [[.createNode "Person" ∅], [.createEdge ⟨1⟩ edgeType ⟨1⟩ ∅]]

/-- The edge with a type of 65536 bytes does not decode. -/
theorem not_decodes_longType : ¬∀ (txs : List (List GraphOp)) (e : EdgeId) (r : EdgeRecord),
    (run txs).store.getEdgeIn e = some r →
      (run txs).store.Decodes r.src r.edgeType r.dst e := by
  intro h
  have hedge : ∀ t : String,
      (run (selfTxs t)).store.getEdgeIn ⟨1⟩ = some ⟨⟨1⟩, ⟨1⟩, t, ∅⟩ := by
    intro t
    rfl
  have hshort := decodeAdjKey_encodeAdjKey_iff.mp (h _ _ _ (hedge (longType 65536))).decodeOut
  rw [ShortType, length_longType] at hshort
  omega

end GraphRun
