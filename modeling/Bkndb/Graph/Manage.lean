import Bkndb.Graph.Delete

/-!
# Index management keeps the graph invariant

Creating, dropping and rebuilding the property indexes, and rebuilding the label index.

## Pairs one at a time

A backfill of a pair deletes its entries and puts those of the nodes. Entries of different pairs
have different prefixes, so the other indexes are not touched; creating, dropping and rebuilding
are put together from backfills and from writes to the registry.
-/

namespace GraphStore

open Graph

variable {s s' : GraphStore} {label property : String}

/-! ## Creating and dropping -/

theorem Consistent.of_props (hs : s.Consistent) {m : OrdMap Bytes Unit} {meta₁ : OrdMap Bytes Bytes}
    (hn : meta₁.get? nextNodeIdKey = s.metaTable.get? nextNodeIdKey)
    (he : meta₁.get? nextEdgeIdKey = s.metaTable.get? nextEdgeIdKey)
    (hr : RegistryOk { s with nodeProps := m, metaTable := meta₁ })
    (hp : PropsOk { s with nodeProps := m, metaTable := meta₁ }) :
    ({ s with nodeProps := m, metaTable := meta₁ } : GraphStore).Consistent where
  edges := hs.edges.congr rfl rfl rfl
  labels := hs.labels.congr rfl rfl
  registry := hr
  props := hp
  endpoints := hs.endpoints
  nodeIds := hs.nodeIds.congr rfl hn
  edgeIds := hs.edgeIds.congr rfl he

theorem registryKey_isPrefix {reg : Bytes} (h : registryKey label property = .ok reg) :
    propIndexPrefix <+: reg := by
  rw [(registryKey_eq_ok.mp h).2]
  exact List.prefix_append _ _

theorem registryKey_ne {reg key : Bytes} (h : registryKey label property = .ok reg)
    (hkey : ¬propIndexPrefix <+: key) : key ≠ reg := by
  rintro rfl
  exact hkey (registryKey_isPrefix h)

/-- After a backfill of a pair the entries are right if the other pairs' were. -/
theorem propsOk_backfill {m : OrdMap Bytes Unit} (hl : ShortName label)
    (hp : ShortName property) (hreg : s.Registered label property)
    (hother : ∀ k, ¬Bytes.lenPrefixed label.utf8 ++ Bytes.lenPrefixed property.utf8 <+: k →
      (s.nodeProps.contains k = true ↔ s.PropKey k))
    (hm : ∀ k, m.contains k = true ↔ (s.nodeProps.contains k = true ∧
      ¬Bytes.lenPrefixed label.utf8 ++ Bytes.lenPrefixed property.utf8 <+: k) ∨
        ∃ id r, s.getNodeIn id = some r ∧ r.label = label ∧
          propEntry label property (r.properties.get? property) id = .ok (some k)) :
    PropsOk { s with nodeProps := m } := by
  have hpre := propPrefix_eq_ok.mpr ⟨⟨hl, hp⟩, rfl⟩
  intro k
  have hkey : PropKey { s with nodeProps := m } k ↔ s.PropKey k :=
    propKey_congr rfl (fun _ _ ↦ Iff.rfl) k
  rw [hkey, hm]
  constructor
  · rintro (⟨hin, hnot⟩ | ⟨id, r, hget, rfl, he⟩)
    · exact (hother k hnot).mp hin
    · exact ⟨id, r, property, hget, hreg, he⟩
  · rintro ⟨id, r, p, hget, hr, he⟩
    by_cases hk : Bytes.lenPrefixed label.utf8 ++ Bytes.lenPrefixed property.utf8 <+: k
    · obtain ⟨rfl, rfl⟩ := (propPrefix_isPrefix hpre he).mp hk
      exact .inr ⟨id, r, hget, rfl, he⟩
    · exact .inl ⟨(hother k hk).mpr ⟨id, r, p, hget, hr, he⟩, hk⟩

theorem Consistent.createPropertyIndexIn (hs : s.Consistent) {b : Bool}
    (h : s.createPropertyIndexIn label property = .ok (s', b)) : s'.Consistent ∧
      ∀ key, ¬propIndexPrefix <+: key → s'.metaTable.get? key = s.metaTable.get? key := by
  rw [GraphStore.createPropertyIndexIn, Except.bind_eq_ok] at h
  obtain ⟨reg, hreg, h⟩ := h
  split_ifs at h with hin
  · obtain ⟨rfl, -⟩ := Prod.mk.inj (Except.ok.inj h)
    exact ⟨hs, fun _ _ ↦ rfl⟩
  obtain ⟨t, ht, heq⟩ := Except.bind_eq_ok.mp h
  obtain ⟨rfl, -⟩ := Prod.mk.inj (Except.ok.inj heq)
  obtain ⟨hl, hp⟩ := (registryKey_eq_ok.mp hreg).1
  set s₁ : GraphStore := { s with metaTable := s.metaTable.insert reg [] } with hs₁
  have hlabels : s₁.LabelsOk := hs.labels.congr rfl rfl
  obtain ⟨m, hm, hcontains⟩ := backfillProperty_spec hlabels hl hp
  obtain rfl := Except.ok.inj (hm.symm.trans ht)
  have hregistered : ∀ l p, s₁.Registered l p ↔ (l = label ∧ p = property) ∨ s.Registered l p := by
    intro l p
    constructor
    · rintro ⟨k, hk, hin⟩
      rcases OrdMap.contains_insert.mp hin with rfl | hin
      · exact .inl (registryKey_inj hk hreg)
      · exact .inr ⟨k, hk, hin⟩
    · rintro (⟨rfl, rfl⟩ | ⟨k, hk, hin⟩)
      · exact ⟨reg, hreg, OrdMap.contains_insert.mpr (.inl rfl)⟩
      · exact ⟨k, hk, OrdMap.contains_insert.mpr (.inr hin)⟩
  have hmeta : ∀ key, ¬propIndexPrefix <+: key →
      (s.metaTable.insert reg []).get? key = s.metaTable.get? key :=
    fun key hkey ↦ OrdMap.get?_insert_of_ne _ _ (registryKey_ne hreg hkey)
  refine ⟨hs.of_props (hmeta _ not_isPrefix_nextNodeIdKey) (hmeta _ not_isPrefix_nextEdgeIdKey)
    ?_ ?_, hmeta⟩
  · intro k hk hpre
    rcases OrdMap.contains_insert.mp hk with rfl | hk
    · exact ⟨label, property, hreg⟩
    · exact hs.registry k hk hpre
  · refine propsOk_backfill hl hp ((hregistered _ _).mpr (.inl ⟨rfl, rfl⟩)) ?_ hcontains
    intro k hnot
    rw [show s₁.nodeProps = s.nodeProps from rfl, hs.props k]
    constructor
    · rintro ⟨id, r, p, hget, hr, he⟩
      exact ⟨id, r, p, hget, (hregistered _ _).mpr (.inr hr), he⟩
    · rintro ⟨id, r, p, hget, hr, he⟩
      rcases (hregistered _ _).mp hr with ⟨rfl, rfl⟩ | hr
      · exact absurd ((propPrefix_isPrefix (propPrefix_eq_ok.mpr ⟨⟨hl, hp⟩, rfl⟩) he).mpr
          ⟨rfl, rfl⟩) hnot
      · exact ⟨id, r, p, hget, hr, he⟩

theorem Consistent.dropPropertyIndexIn (hs : s.Consistent) {b : Bool}
    (h : s.dropPropertyIndexIn label property = .ok (s', b)) : s'.Consistent ∧
      ∀ key, ¬propIndexPrefix <+: key → s'.metaTable.get? key = s.metaTable.get? key := by
  rw [GraphStore.dropPropertyIndexIn, Except.bind_eq_ok] at h
  obtain ⟨reg, hreg, h⟩ := h
  split_ifs at h with hin
  · obtain ⟨rfl, -⟩ := Prod.mk.inj (Except.ok.inj h)
    exact ⟨hs, fun _ _ ↦ rfl⟩
  obtain ⟨pre, hpre, heq⟩ := Except.bind_eq_ok.mp h
  obtain ⟨rfl, -⟩ := Prod.mk.inj (Except.ok.inj heq)
  have hregistered : ∀ l p, Registered { s with metaTable := s.metaTable.erase reg } l p ↔
      ¬(l = label ∧ p = property) ∧ s.Registered l p := by
    intro l p
    constructor
    · rintro ⟨k, hk, hin⟩
      obtain ⟨hne, hin⟩ := OrdMap.contains_erase.mp hin
      refine ⟨?_, k, hk, hin⟩
      rintro ⟨rfl, rfl⟩
      exact hne (Except.ok.inj (hk.symm.trans hreg))
    · rintro ⟨hne, k, hk, hin⟩
      refine ⟨k, hk, OrdMap.contains_erase.mpr ⟨?_, hin⟩⟩
      rintro rfl
      exact hne (registryKey_inj hk hreg)
  have hmeta : ∀ key, ¬propIndexPrefix <+: key →
      (s.metaTable.erase reg).get? key = s.metaTable.get? key :=
    fun key hkey ↦ OrdMap.get?_erase_of_ne _ (registryKey_ne hreg hkey)
  refine ⟨hs.of_props (hmeta _ not_isPrefix_nextNodeIdKey) (hmeta _ not_isPrefix_nextEdgeIdKey)
    ?_ ?_, hmeta⟩
  · intro k hk hstarts
    exact hs.registry k (OrdMap.contains_erase.mp hk).2 hstarts
  · intro k
    rw [contains_clearPrefix, hs.props k]
    constructor
    · rintro ⟨⟨id, r, p, hget, hr, he⟩, hnot⟩
      refine ⟨id, r, p, hget, (hregistered _ _).mpr ⟨?_, hr⟩, he⟩
      rintro ⟨hl, hp⟩
      exact hnot ((propPrefix_isPrefix hpre he).mpr ⟨hl.symm, hp.symm⟩)
    · rintro ⟨id, r, p, hget, hr, he⟩
      obtain ⟨hne, hr⟩ := (hregistered _ _).mp hr
      refine ⟨⟨id, r, p, hget, hr, he⟩, fun hk ↦ hne ?_⟩
      obtain ⟨hl, hp⟩ := (propPrefix_isPrefix hpre he).mp hk
      exact ⟨hl.symm, hp.symm⟩

/-! ## Rebuilding -/

/-- **Every registered pair is found.** -/
theorem propertyIndexesIn_spec (hr : s.RegistryOk) : ∃ pairs, s.propertyIndexesIn = .ok pairs ∧
    ∀ l p, (l, p) ∈ pairs ↔ s.Registered l p := by
  obtain ⟨pairs, hpairs, hR⟩ : ∃ pairs, s.propertyIndexesIn = .ok pairs ∧
      List.Forall₂ (fun k pair ↦ registryKey pair.1 pair.2 = .ok k ∧ s.metaTable.contains k = true)
        (scanPrefix s.metaTable propIndexPrefix) pairs := by
    refine Except.mapM_exists fun k hk ↦ ?_
    obtain ⟨hin, hstarts⟩ := mem_scanPrefix.mp hk
    obtain ⟨l, p, hreg⟩ := hr k hin hstarts
    obtain ⟨⟨hl, hp⟩, hkey⟩ := registryKey_eq_ok.mp hreg
    refine ⟨(l, p), ?_, hreg, hin⟩
    have hdrop : k.drop propIndexPrefix.length = Bytes.lenPrefixed l.utf8 ++
        (Bytes.lenPrefixed p.utf8 ++ []) := by
      rw [hkey, List.drop_left' rfl, List.append_nil]
    simp only [hdrop, readName_lenPrefixed hl, Except.ok_bind, readName_lenPrefixed hp]
    rfl
  refine ⟨pairs, hpairs, fun l p ↦ ⟨fun h ↦ ?_, ?_⟩⟩
  · obtain ⟨k, -, hreg, hin⟩ := hR.exists_left h
    exact ⟨k, hreg, hin⟩
  · rintro ⟨k, hreg, hin⟩
    obtain ⟨⟨l', p'⟩, hmem, hreg', -⟩ := hR.exists_right
      (mem_scanPrefix.mpr ⟨hin, registryKey_isPrefix hreg⟩)
    obtain ⟨rfl, rfl⟩ := registryKey_inj hreg hreg'
    exact hmem

theorem Consistent.backfillProperty (hs : s.Consistent) (hreg : s.Registered label property)
    (h : s.backfillProperty label property = .ok s') :
    s'.Consistent ∧ s'.metaTable = s.metaTable := by
  obtain ⟨hl, hp⟩ := hreg.shortNames
  obtain ⟨m, hm, hcontains⟩ := backfillProperty_spec hs.labels hl hp
  obtain rfl := Except.ok.inj (hm.symm.trans h)
  exact ⟨hs.of_props rfl rfl hs.registry
    (propsOk_backfill hl hp hreg (fun k _ ↦ hs.props k) hcontains), rfl⟩

theorem relabel_spec {l : List (NodeId × NodeRecord)} {t : GraphStore}
    (h : l.foldlM (fun s e ↦ do
      return { s with nodeLabels := s.nodeLabels.insert (← labelKey e.2.label e.1) () }) s =
        .ok t) :
    ∃ m, t = { s with nodeLabels := m } ∧ ∀ k, m.contains k = true ↔
      s.nodeLabels.contains k = true ∨ ∃ e ∈ l, labelKey e.2.label e.1 = .ok k := by
  refine Except.foldlM_induction (fun done t ↦ ∃ m, t = { s with nodeLabels := m } ∧
    ∀ k, m.contains k = true ↔ s.nodeLabels.contains k = true ∨
      ∃ e ∈ done, labelKey e.2.label e.1 = .ok k) h ⟨s.nodeLabels, rfl, by simp⟩ ?_
  rintro done e _ t' - ⟨m, rfl, hm⟩ hstep
  obtain ⟨key, hkey, heq⟩ := Except.bind_eq_ok.mp hstep
  obtain rfl := Except.ok.inj heq
  refine ⟨m.insert key (), rfl, fun k ↦ ?_⟩
  have hk : labelKey e.2.label e.1 = .ok k ↔ k = key := by simp [hkey, eq_comm]
  rw [OrdMap.contains_insert, hm]
  simp only [List.mem_append, List.mem_singleton, or_and_right, exists_or, exists_eq_left, hk]
  rw [or_comm, or_assoc]

theorem Consistent.rebuildIndexesIn (hs : s.Consistent) (h : s.rebuildIndexesIn = .ok s') :
    s'.Consistent ∧ ∀ key, key ≠ labelIndexMarker → s'.metaTable.get? key = s.metaTable.get? key := by
  obtain ⟨nodes, hscan, -, hmem⟩ := scanAllNodes_spec hs.labels
  rw [GraphStore.rebuildIndexesIn, hscan, Except.ok_bind] at h
  obtain ⟨t, ht, h⟩ := Except.bind_eq_ok.mp h
  obtain ⟨m, rfl, hm⟩ := relabel_spec ht
  -- the label index is as it was
  have hlabels : LabelsOk { s with nodeLabels := m } := by
    refine ⟨hs.labels.nodeKey, hs.labels.shortLabel, fun k ↦ ?_⟩
    rw [hm, contains_clearPrefix]
    simp only [List.nil_prefix, not_true_eq_false, and_false, false_or, Prod.exists, hmem]
    rfl
  have hs₁ : Consistent { s with nodeLabels := m } :=
    ⟨hs.edges.congr rfl rfl rfl, hlabels, hs.registry, hs.props, hs.endpoints, hs.nodeIds,
      hs.edgeIds⟩
  have hs₂ := hs₁.insertMeta (v := [1]) not_isPrefix_labelIndexMarker (by decide +kernel)
    (by decide +kernel)
  obtain ⟨pairs, hpairs, hreg⟩ := propertyIndexesIn_spec hs₂.registry
  obtain ⟨pairs', hpairs', h⟩ := Except.bind_eq_ok.mp h
  obtain rfl := Except.ok.inj (hpairs.symm.trans hpairs')
  have hrun := Except.foldlM_invariant (fun t : GraphStore ↦ t.Consistent ∧
    t.metaTable = s.metaTable.insert labelIndexMarker [1]) h ⟨hs₂, rfl⟩ (by
      rintro ⟨l, p⟩ hlp u u' ⟨hu, hmeta⟩ hstep
      have hr : u.Registered l p := by
        refine (registered_congr (fun k _ ↦ ?_) l p).mp ((hreg l p).mp hlp)
        rw [hmeta]
      obtain ⟨hu', hmeta'⟩ := hu.backfillProperty hr hstep
      exact ⟨hu', hmeta'.trans hmeta⟩)
  refine ⟨hrun.1, fun key hkey ↦ ?_⟩
  rw [hrun.2, OrdMap.get?_insert_of_ne _ _ hkey]

end GraphStore
