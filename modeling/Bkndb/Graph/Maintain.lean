import Bkndb.Graph.Invariant

/-!
# Index maintenance

Each hook of the node writes, and each operation on the indexes, succeeds under the invariant and
leaves the entries of the nodes it leaves behind.

## Loops over entries

The hooks compute the entries of a node for its registered properties and put or delete each of
them. A loop that puts one entry after another adds the set of these entries, whatever their order,
and a failing entry cannot occur under the invariant, because the names of every node and pair fit.
An update deletes and then puts, so an entry that both lists have is there in the end.
-/

namespace GraphStore

open Graph

variable {s s' : GraphStore} {id : NodeId} {label property : String}

theorem Registered.shortNames (h : s.Registered label property) :
    ShortName label ∧ ShortName property := by
  obtain ⟨reg, hreg, -⟩ := h
  exact (registryKey_eq_ok.mp hreg).1

/-! ## The registry -/

/-- **The registered properties of a label are found.** -/
theorem indexedProperties_spec (hr : s.RegistryOk) (hl : ShortName label) :
    ∃ ps, s.indexedProperties label = .ok ps ∧ ps.Nodup ∧ ∀ p, p ∈ ps ↔ s.Registered label p := by
  set pre := propIndexPrefix ++ Bytes.lenPrefixed label.utf8 with hpre
  -- a key in the scanned range is the registry key of a property of this label
  have hkeys : ∀ k ∈ scanPrefix s.metaTable pre, ∃ p, (do
      return (← readName (k.drop pre.length)).1 : Except BknError String) = .ok p ∧
        (registryKey label p = .ok k ∧ s.metaTable.contains k = true) := by
    intro k hk
    obtain ⟨hin, hstarts⟩ := mem_scanPrefix.mp hk
    obtain ⟨l, p, hreg⟩ := hr k hin ((List.prefix_append _ _).trans hstarts)
    obtain ⟨⟨hl', hp⟩, hkey⟩ := registryKey_eq_ok.mp hreg
    rw [hkey, hpre, List.prefix_append_right_inj, Bytes.lenPrefixed_isPrefix hl.lt hl'.lt]
      at hstarts
    obtain rfl := String.utf8_injective hstarts
    refine ⟨p, ?_, hreg, hin⟩
    have hdrop : k.drop pre.length = Bytes.lenPrefixed p.utf8 ++ [] := by
      rw [hkey, ← List.append_assoc, ← hpre, List.drop_left' rfl, List.append_nil]
    rw [hdrop, readName_lenPrefixed hp]
    rfl
  obtain ⟨ps, hps, hR⟩ := Except.mapM_exists hkeys
  refine ⟨ps, ?_, ?_, fun p ↦ ⟨fun hp ↦ ?_, ?_⟩⟩
  · rw [indexedProperties, labelPrefix_eq_ok.mpr ⟨hl, rfl⟩]
    exact hps
  · refine hR.pairwise_right (scanPrefix_sorted s.metaTable pre) ?_
    rintro k k' p p' ⟨hk, -⟩ ⟨hk', -⟩ hlt rfl
    rw [hk] at hk'
    exact absurd (Except.ok.inj hk') (ne_of_lt hlt)
  · obtain ⟨k, -, hreg, hin⟩ := hR.exists_left hp
    exact ⟨k, hreg, hin⟩
  · rintro ⟨reg, hreg, hin⟩
    have hmem : reg ∈ scanPrefix s.metaTable pre := by
      refine mem_scanPrefix.mpr ⟨hin, ?_⟩
      rw [(registryKey_eq_ok.mp hreg).2, ← List.append_assoc]
      exact List.prefix_append _ _
    obtain ⟨p', hp', hreg', -⟩ := hR.exists_right hmem
    rwa [(registryKey_inj hreg hreg').2]

/-! ## Loops over index entries -/

theorem foldlM_putProp {α : Type} (body : GraphStore → α → Except BknError GraphStore)
    (entry : α → Except BknError (Option Bytes)) {l : List α} (s : GraphStore)
    (hbody : ∀ m, ∀ a ∈ l, ∃ e, entry a = .ok e ∧
      body { s with nodeProps := m } a = .ok (putProp { s with nodeProps := m } e)) :
    ∃ m, l.foldlM body s = .ok { s with nodeProps := m } ∧ ∀ k, m.contains k = true ↔
      s.nodeProps.contains k = true ∨ ∃ a ∈ l, entry a = .ok (some k) := by
  obtain ⟨t, ht, m, rfl, hm⟩ := Except.foldlM_exists (f := body) (l := l) (s := s)
    (fun done t ↦ ∃ m, t = { s with nodeProps := m } ∧ ∀ k, m.contains k = true ↔
      s.nodeProps.contains k = true ∨ ∃ a ∈ done, entry a = .ok (some k))
    ⟨s.nodeProps, rfl, by simp⟩ (by
      rintro done a t hpre ⟨m, rfl, hm⟩
      obtain ⟨e, he, hb⟩ := hbody m a (hpre.subset (by simp))
      cases e with
      | none =>
        refine ⟨_, hb, m, rfl, fun k ↦ ?_⟩
        simp [hm, he]
      | some key =>
        refine ⟨_, hb, m.insert key (), rfl, fun k ↦ ?_⟩
        have hkey : entry a = .ok (some k) ↔ k = key := by simp [he, eq_comm]
        rw [OrdMap.contains_insert, hm]
        simp only [List.mem_append, List.mem_singleton, or_and_right, exists_or, exists_eq_left,
          hkey]
        rw [or_comm, or_assoc])
  exact ⟨m, ht, hm⟩

theorem foldlM_deleteProp {α : Type} (body : GraphStore → α → Except BknError GraphStore)
    (entry : α → Except BknError (Option Bytes)) {l : List α} (s : GraphStore)
    (hbody : ∀ m, ∀ a ∈ l, ∃ e, entry a = .ok e ∧
      body { s with nodeProps := m } a = .ok (deleteProp { s with nodeProps := m } e)) :
    ∃ m, l.foldlM body s = .ok { s with nodeProps := m } ∧ ∀ k, m.contains k = true ↔
      s.nodeProps.contains k = true ∧ ∀ a ∈ l, entry a ≠ .ok (some k) := by
  obtain ⟨t, ht, m, rfl, hm⟩ := Except.foldlM_exists (f := body) (l := l) (s := s)
    (fun done t ↦ ∃ m, t = { s with nodeProps := m } ∧ ∀ k, m.contains k = true ↔
      s.nodeProps.contains k = true ∧ ∀ a ∈ done, entry a ≠ .ok (some k))
    ⟨s.nodeProps, rfl, by simp⟩ (by
      rintro done a t hpre ⟨m, rfl, hm⟩
      obtain ⟨e, he, hb⟩ := hbody m a (hpre.subset (by simp))
      cases e with
      | none =>
        refine ⟨_, hb, m, rfl, fun k ↦ ?_⟩
        simp [hm, he, or_imp, forall_and]
      | some key =>
        refine ⟨_, hb, m.erase key, rfl, fun k ↦ ?_⟩
        have hkey : entry a = .ok (some k) ↔ k = key := by simp [he, eq_comm]
        rw [OrdMap.contains_erase, hm]
        simp only [List.mem_append, List.mem_singleton, or_imp, forall_and, forall_eq, ne_eq, hkey]
        rw [and_comm, and_assoc])
  exact ⟨m, ht, hm⟩

/-! ## The hooks -/

theorem onInsert_spec (id : NodeId) {record : NodeRecord} (hr : s.RegistryOk)
    (hl : ShortName record.label) :
    ∃ k m, labelKey record.label id = .ok k ∧
      s.onInsert id record =
        .ok { s with nodeLabels := s.nodeLabels.insert k (), nodeProps := m } ∧
      ∀ k', m.contains k' = true ↔ s.nodeProps.contains k' = true ∨
        ∃ p, s.Registered record.label p ∧
          propEntry record.label p (record.properties.get? p) id = .ok (some k') := by
  obtain ⟨k, hk⟩ : ∃ k, labelKey record.label id = .ok k := ⟨_, labelKey_eq_ok.mpr ⟨hl, rfl⟩⟩
  obtain ⟨ps, hps, -, hmem⟩ := indexedProperties_spec
    (s := { s with nodeLabels := s.nodeLabels.insert k () }) hr hl
  obtain ⟨m, hm, hcontains⟩ := foldlM_putProp (l := ps)
    (fun s prop ↦ do
      return s.putProp (← propEntry record.label prop (record.properties.get? prop) id))
    (fun prop ↦ propEntry record.label prop (record.properties.get? prop) id)
    { s with nodeLabels := s.nodeLabels.insert k () } (by
      intro m p hp
      obtain ⟨e, he⟩ := propEntry_isOk hl ((hmem p).mp hp).shortNames.2
        (record.properties.get? p) id
      exact ⟨e, he, by rw [he]; rfl⟩)
  refine ⟨k, m, hk, ?_, fun k' ↦ ?_⟩
  · simp only [onInsert, hk, Except.ok_bind, hps, hm]
  · rw [hcontains]
    exact or_congr_right (exists_congr fun p ↦ and_congr_left fun _ ↦ hmem p)

theorem onDelete_spec (id : NodeId) {record : NodeRecord} (hr : s.RegistryOk)
    (hl : ShortName record.label) :
    ∃ k m, labelKey record.label id = .ok k ∧
      s.onDelete id record =
        .ok { s with nodeLabels := s.nodeLabels.erase k, nodeProps := m } ∧
      ∀ k', m.contains k' = true ↔ s.nodeProps.contains k' = true ∧
        ∀ p, s.Registered record.label p →
          propEntry record.label p (record.properties.get? p) id ≠ .ok (some k') := by
  obtain ⟨k, hk⟩ : ∃ k, labelKey record.label id = .ok k := ⟨_, labelKey_eq_ok.mpr ⟨hl, rfl⟩⟩
  obtain ⟨ps, hps, -, hmem⟩ := indexedProperties_spec
    (s := { s with nodeLabels := s.nodeLabels.erase k }) hr hl
  obtain ⟨m, hm, hcontains⟩ := foldlM_deleteProp (l := ps)
    (fun s prop ↦ do
      return s.deleteProp (← propEntry record.label prop (record.properties.get? prop) id))
    (fun prop ↦ propEntry record.label prop (record.properties.get? prop) id)
    { s with nodeLabels := s.nodeLabels.erase k } (by
      intro m p hp
      obtain ⟨e, he⟩ := propEntry_isOk hl ((hmem p).mp hp).shortNames.2
        (record.properties.get? p) id
      exact ⟨e, he, by rw [he]; rfl⟩)
  refine ⟨k, m, hk, ?_, fun k' ↦ ?_⟩
  · simp only [onDelete, hk, Except.ok_bind, hps, hm]
  · rw [hcontains]
    exact and_congr_right fun _ ↦ forall_congr' fun p ↦ imp_congr_left (hmem p)

theorem putProp_eq (s : GraphStore) (e : Option Bytes) :
    ∃ m, s.putProp e = { s with nodeProps := m } ∧
      ∀ k, m.contains k = true ↔ e = some k ∨ s.nodeProps.contains k = true := by
  cases e with
  | none => exact ⟨_, rfl, by simp⟩
  | some key => exact ⟨_, rfl, fun k ↦ by rw [OrdMap.contains_insert, Option.some_inj, eq_comm]⟩

theorem deleteProp_eq (s : GraphStore) (e : Option Bytes) :
    ∃ m, s.deleteProp e = { s with nodeProps := m } ∧
      ∀ k, m.contains k = true ↔ e ≠ some k ∧ s.nodeProps.contains k = true := by
  cases e with
  | none => exact ⟨_, rfl, by simp⟩
  | some key =>
    exact ⟨_, rfl, fun k ↦ by rw [OrdMap.contains_erase, ne_eq, ne_eq, Option.some_inj, eq_comm]⟩

theorem onUpdate_spec (id : NodeId) {old new : NodeRecord} (hr : s.RegistryOk)
    (hlabel : new.label = old.label) (hl : ShortName old.label)
    (hin : ∀ p k, s.Registered old.label p →
      propEntry old.label p (old.properties.get? p) id = .ok (some k) →
        s.nodeProps.contains k = true) :
    ∃ m, s.onUpdate id old new = .ok { s with nodeProps := m } ∧ ∀ k, m.contains k = true ↔
      (s.nodeProps.contains k = true ∧ ∀ p, s.Registered old.label p →
        propEntry old.label p (old.properties.get? p) id ≠ .ok (some k)) ∨
      ∃ p, s.Registered old.label p ∧
        propEntry old.label p (new.properties.get? p) id = .ok (some k) := by
  obtain ⟨ps, hps, hnodup, hmem⟩ := indexedProperties_spec hr hl
  rw [onUpdate, hlabel, hps, Except.ok_bind]
  obtain ⟨t, ht, m, rfl, hm⟩ := Except.foldlM_exists (l := ps) (s := s)
    (f := fun s prop ↦ do
      let before := old.properties.get? prop
      let after := new.properties.get? prop
      if PropValue.eqvOption before after then return s
      let s := s.deleteProp (← propEntry old.label prop before id)
      return s.putProp (← propEntry old.label prop after id))
    (fun done t ↦ ∃ m, t = { s with nodeProps := m } ∧ ∀ k, m.contains k = true ↔
      (s.nodeProps.contains k = true ∧ ∀ p ∈ done,
        propEntry old.label p (old.properties.get? p) id ≠ .ok (some k)) ∨
      ∃ p ∈ done, propEntry old.label p (new.properties.get? p) id = .ok (some k))
    ⟨s.nodeProps, rfl, by simp⟩ (by
      rintro done p t hpre ⟨m, rfl, hm⟩
      have hp : p ∈ ps := hpre.subset (by simp)
      have hnew : p ∉ done := by
        have := (hnodup.sublist hpre.sublist)
        rw [List.nodup_append] at this
        exact fun hd ↦ this.2.2 p hd p (by simp) rfl
      -- the entries of another property are different keys
      have hother : ∀ {q k v w}, q ∈ done → propEntry old.label q v id = .ok (some k) →
          propEntry old.label p w id ≠ .ok (some k) := by
        intro q k v w hq h h'
        exact hnew ((propEntry_inj h h').2.1 ▸ hq)
      obtain ⟨eb, heb⟩ := propEntry_isOk hl ((hmem p).mp hp).shortNames.2
        (old.properties.get? p) id
      obtain ⟨ea, hea⟩ := propEntry_isOk hl ((hmem p).mp hp).shortNames.2
        (new.properties.get? p) id
      simp only [List.mem_append, List.mem_singleton, or_imp, forall_and, forall_eq, or_and_right,
        exists_or, exists_eq_left]
      by_cases heqv : PropValue.eqvOption (old.properties.get? p) (new.properties.get? p) = true
      · rw [if_pos heqv]
        refine ⟨_, rfl, m, rfl, fun k ↦ ?_⟩
        rw [hm, ← propEntry_congr heqv]
        by_cases hk : propEntry old.label p (old.properties.get? p) id = .ok (some k)
        · have h1 := hin p k ((hmem p).mp hp) hk
          have h2 : ∀ q ∈ done, propEntry old.label q (old.properties.get? q) id ≠ .ok (some k) :=
            fun q hq h ↦ hother hq h hk
          simp only [h1, hk, true_and, or_true, iff_true, ne_eq]
          exact .inl fun q hq ↦ h2 q hq
        · simp only [hk, ne_eq, not_false_eq_true, and_true, or_false]
      · rw [if_neg heqv, heb, Except.ok_bind, hea, Except.ok_bind]
        obtain ⟨m₁, h₁, hm₁⟩ := deleteProp_eq { s with nodeProps := m } eb
        rw [h₁]
        obtain ⟨m₂, h₂, hm₂⟩ := putProp_eq { s with nodeProps := m₁ } ea
        refine ⟨_, rfl, m₂, h₂, fun k ↦ ?_⟩
        have hdone : (∃ q ∈ done, propEntry old.label q (new.properties.get? q) id = .ok (some k)) →
            eb ≠ some k := by
          rintro ⟨q, hq, h⟩ rfl
          exact hother hq h heb
        rw [hm₂, hm₁, hm]
        simp only [Except.ok.injEq, ne_eq]
        constructor
        · rintro (h | ⟨h, ⟨h1, h2⟩ | h1⟩)
          · exact .inr (.inr h)
          · exact .inl ⟨h1, h2, h⟩
          · exact .inr (.inl h1)
        · rintro (⟨h1, h2, h⟩ | h1 | h)
          · exact .inr ⟨h, .inl ⟨h1, h2⟩⟩
          · exact .inr ⟨hdone h1, .inr h1⟩
          · exact .inl h)
  refine ⟨m, ht, fun k ↦ ?_⟩
  simp only [hm, hmem]

/-! ## Scans -/

/-- **Every node is scanned once, in identifier order.** -/
theorem scanAllNodes_spec (hs : s.LabelsOk) : ∃ l, s.scanAllNodes = .ok l ∧
    l.Pairwise (fun a b ↦ a.1.id.toNat < b.1.id.toNat) ∧
      ∀ id r, (id, r) ∈ l ↔ s.getNodeIn id = some r := by
  obtain ⟨l, hl, hR⟩ := Except.mapM_exists (l := s.nodes.range .unbounded .unbounded)
    (f := fun e ↦ do return (← decodeNodeId e.1, e.2))
    (Q := fun e b ↦ e = (nodeKey b.1, b.2)) (by
      rintro ⟨k, r⟩ he
      rw [OrdMap.range_unbounded, OrdMap.mem_entries] at he
      obtain ⟨id, rfl⟩ := hs.nodeKey k (OrdMap.contains_iff.mpr ⟨r, he⟩)
      exact ⟨(id, r), by rw [decodeNodeId_nodeKey]; rfl, rfl⟩)
  refine ⟨l, hl, ?_, fun id r ↦ ?_⟩
  · refine hR.pairwise_right (s.nodes.range_sorted _ _) ?_
    rintro _ _ ⟨a, r⟩ ⟨b, r'⟩ rfl rfl hlt
    exact nodeKey_lt_iff.mp hlt
  · rw [getNodeIn, ← OrdMap.mem_entries, ← OrdMap.range_unbounded]
    constructor
    · intro h
      obtain ⟨e, he, rfl⟩ := hR.exists_left h
      exact he
    · intro h
      obtain ⟨⟨id', r'⟩, hb, heq⟩ := hR.exists_right h
      obtain ⟨hk, rfl⟩ := Prod.mk.inj heq
      rwa [nodeKey_injective hk]

/-- What a label lookup returns. -/
structure ByLabel (s : GraphStore) (label : String) (ids : List NodeId) : Prop where
  /-- Ascending. -/
  sorted : ids.Pairwise fun a b ↦ a.id.toNat < b.id.toNat
  /-- The nodes with the label. -/
  mem : ∀ id, id ∈ ids ↔ ∃ r, s.getNodeIn id = some r ∧ r.label = label

/-- **A label lookup returns the nodes with the label**, from the index or by a scan. -/
theorem nodesByLabelIn_spec (hs : s.LabelsOk) (hl : ShortName label ∨ s.labelIndexReady = false) :
    ∃ ids, s.nodesByLabelIn label = .ok ids ∧ s.ByLabel label ids := by
  rw [nodesByLabelIn]
  split_ifs with hready
  · replace hl : ShortName label := by simpa [hready] using hl
    rw [labelPrefix_eq_ok.mpr ⟨hl, rfl⟩, Except.ok_bind]
    obtain ⟨ids, hids, hR⟩ := Except.mapM_exists
      (l := scanPrefix s.nodeLabels (Bytes.lenPrefixed label.utf8)) (f := trailingNodeId)
      (Q := fun k id ↦ k = Bytes.lenPrefixed label.utf8 ++ nodeKey id ∧
        s.nodeLabels.contains k = true) (by
        intro k hk
        obtain ⟨hin, hstarts⟩ := mem_scanPrefix.mp hk
        obtain ⟨id, r, -, hkey⟩ := (hs.nodeLabels k).mp hin
        obtain ⟨hr, rfl⟩ := labelKey_eq_ok.mp hkey
        rw [Bytes.lenPrefixed_isPrefix hl.lt hr.lt] at hstarts
        exact ⟨id, trailingNodeId_append _ _, by rw [hstarts], hin⟩)
    refine ⟨ids, hids, ?_, fun id ↦ ⟨fun hid ↦ ?_, ?_⟩⟩
    · refine hR.pairwise_right (scanPrefix_sorted _ _) ?_
      rintro _ _ a b ⟨rfl, -⟩ ⟨rfl, -⟩ hlt
      exact nodeKey_lt_iff.mp ((Bytes.append_lt_append_iff _).mp hlt)
    · obtain ⟨k, -, rfl, hin⟩ := hR.exists_left hid
      obtain ⟨id', r, hget, hkey⟩ := (hs.nodeLabels _).mp hin
      obtain ⟨rfl, rfl⟩ := labelKey_inj hkey (labelKey_eq_ok.mpr ⟨hl, rfl⟩)
      exact ⟨r, hget, rfl⟩
    · rintro ⟨r, hget, rfl⟩
      have hkey : labelKey r.label id = .ok (Bytes.lenPrefixed r.label.utf8 ++ nodeKey id) :=
        labelKey_eq_ok.mpr ⟨hl, rfl⟩
      obtain ⟨id', hid', heq, -⟩ := hR.exists_right
        (mem_scanPrefix.mpr ⟨(hs.nodeLabels _).mpr ⟨id, r, hget, hkey⟩, List.prefix_append _ _⟩)
      rwa [nodeKey_injective (List.append_cancel_left heq)]
  · obtain ⟨l, hscan, hsorted, hmem⟩ := scanAllNodes_spec hs
    rw [hscan, Except.ok_bind]
    refine ⟨_, rfl, ?_, fun id ↦ ?_⟩
    · rw [List.pairwise_map]
      exact hsorted.filter _
    · simp only [List.mem_map, List.mem_filter, beq_iff_eq, Prod.exists, exists_and_right,
        exists_eq_right, hmem]

/-! ## Index management -/

/-- **A backfill leaves the entries of the pair's nodes**, and no other entry with its prefix. -/
theorem backfillProperty_spec (hs : s.LabelsOk) (hl : ShortName label) (hp : ShortName property) :
    ∃ m, s.backfillProperty label property = .ok { s with nodeProps := m } ∧
      ∀ k, m.contains k = true ↔ (s.nodeProps.contains k = true ∧
        ¬Bytes.lenPrefixed label.utf8 ++ Bytes.lenPrefixed property.utf8 <+: k) ∨
        ∃ id r, s.getNodeIn id = some r ∧ r.label = label ∧
          propEntry label property (r.properties.get? property) id = .ok (some k) := by
  have hstarts := propPrefix_eq_ok.mpr ⟨⟨hl, hp⟩, rfl⟩
  set pre := Bytes.lenPrefixed label.utf8 ++ Bytes.lenPrefixed property.utf8 with hpre
  set t : GraphStore := { s with nodeProps := clearPrefix s.nodeProps pre } with ht
  obtain ⟨ids, hids, hby⟩ := nodesByLabelIn_spec (s := t) (hs.congr rfl rfl) (.inl hl)
  have hentry : ∀ {id r}, t.getNodeIn id = some r →
      t.backfillEntry label property id = propEntry label property (r.properties.get? property) id :=
    fun {id r} hget ↦ by
      rw [backfillEntry, show t.nodes.get? (nodeKey id) = some r from hget]
  obtain ⟨m, hm, hcontains⟩ := foldlM_putProp (l := ids) (backfillNode label property)
    (t.backfillEntry label property) t (by
      intro m id hid
      obtain ⟨r, hget, -⟩ := (hby.mem id).mp hid
      obtain ⟨e, he⟩ := propEntry_isOk hl hp (r.properties.get? property) id
      have he' : t.backfillEntry label property id = .ok e := (hentry hget).trans he
      refine ⟨e, he', ?_⟩
      rw [backfillNode, show backfillEntry { t with nodeProps := m } label property id = .ok e from he']
      rfl)
  refine ⟨m, ?_, fun k ↦ ?_⟩
  · rw [backfillProperty]
    simp only [hstarts, Except.ok_bind]
    rw [← ht, hids, Except.ok_bind]
    exact hm
  · rw [hcontains, ht, contains_clearPrefix]
    refine or_congr_right ⟨?_, ?_⟩
    · rintro ⟨id, hid, he⟩
      obtain ⟨r, hget, hlabel⟩ := (hby.mem id).mp hid
      exact ⟨id, r, hget, hlabel, (hentry hget).symm.trans he⟩
    · rintro ⟨id, r, hget, hlabel, he⟩
      exact ⟨id, (hby.mem id).mpr ⟨r, hget, hlabel⟩, (hentry hget).trans he⟩

end GraphStore
