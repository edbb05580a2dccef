import Bkndb.Relational.FulltextMirror
import Bkndb.Relational.StoreInvariant
import Bkndb.Relational.VectorMirror

/-!
# Point access

`get` and `delete` address a row by the encoding of the key given (`relational/db/read.rs`,
`write.rs`), and encodings of different kinds can coincide. This module says when they still
respect the key: a key of the wrong kind reaches a row exactly when the row's key has its encoding.

That `delete` succeeds where there is a row rests on what every operation keeps of the search
indexes: a listed vector column has an index, and a text that was indexed can be counted again.

## Main results

* `Maintainable.applyOp`: every operation leaves the search indexes so that a removal can be
  followed.
* `pointAccess_iff_of_reachable`: in every committed state, a point access respects the key exactly
  when it has the kind of the primary-key column, or no row has its encoding.
* `not_pointAccess_timestamp`: a time reaches the row of the integer with the same number.
-/

open PropValue

namespace TableStore

variable [Unicode] {D : Type} [LinearOrder D] {g : Ann.Geometry D} {t t' : TableStore}

/-! ## The search indexes can follow a removal -/

/-- The counts of occurrences are those of `u32` counters. -/
def SmallPostings (t : TableStore) : Prop :=
  ∀ c key n, (t.postings c).get? key = some n → n < 2 ^ 32

/-- What a removal needs of the search indexes. -/
structure Maintainable (t : TableStore) : Prop where
  nodup : t.annColumns.Nodup
  ann : ∀ c ∈ t.annColumns, t.ann c ≠ none
  postings : t.SmallPostings

omit [Unicode] in
theorem maintainable_fresh : ({} : TableStore).Maintainable :=
  ⟨List.nodup_nil, by simp, by simp [SmallPostings]⟩

omit [Unicode] in
theorem Maintainable.congr (hm : t.Maintainable) (hcolumns : t'.annColumns = t.annColumns)
    (hann : t'.ann = t.ann) (hpostings : t'.postings = t.postings) : t'.Maintainable :=
  ⟨hcolumns ▸ hm.nodup, by rw [hcolumns, hann]; exact hm.ann,
    by rw [SmallPostings, hpostings]; exact hm.postings⟩

omit [Unicode] in
theorem lt_of_termFrequencies {tokens : List String} {tf : OrdMap String ℕ}
    (h : termFrequencies tokens = .ok tf) : ∀ term n, tf.get? term = some n → n < 2 ^ 32 := by
  refine Except.foldlM_invariant
    (fun tf : OrdMap String ℕ ↦ ∀ term n, tf.get? term = some n → n < 2 ^ 32) h (by simp)
    fun a _ tf tf' hP hstep term n hn ↦ ?_
  rw [countTerm] at hstep
  split at hstep
  next hlt =>
    obtain rfl := Except.ok.inj hstep
    rw [OrdMap.get?_insert] at hn
    split at hn
    · exact Option.some.inj hn ▸ hlt
    · exact hP term n hn
  next => cases hstep

theorem indexText_small {column : String} {pk : Bytes} {text : String}
    (hsmall : t.SmallPostings)
    (h : t.indexText column pk text = .ok t') : t'.SmallPostings := by
  simp only [indexText, Except.bind_eq_ok] at h
  obtain ⟨tf, htf, docs, -, terms, -, h⟩ := h
  obtain rfl := Except.ok.inj h
  intro c
  dsimp only
  by_cases hc : c = column
  · subst hc
    rw [Function.update_self, OrdMap.insertAll]
    refine List.foldlRecOn (motive := fun m : OrdMap Bytes ℕ ↦
      ∀ key n, m.get? key = some n → n < 2 ^ 32) _ _ (hsmall c) fun m hP e he key n hn ↦ ?_
    rw [OrdMap.get?_insert] at hn
    split at hn
    · obtain ⟨e', he', rfl⟩ := List.mem_map.mp he
      rw [← Option.some.inj hn]
      exact lt_of_termFrequencies htf e'.1 e'.2 (OrdMap.mem_entries.mp he')
    · exact hP key n hn
  · rw [Function.update_of_ne hc]
    exact hsmall c

theorem unindexText_small {column : String} {pk : Bytes} {text : String}
    (hsmall : t.SmallPostings)
    (h : t.unindexText column pk text = .ok t') : t'.SmallPostings := by
  simp only [unindexText, Except.bind_eq_ok] at h
  obtain ⟨tf, -, h⟩ := h
  obtain rfl := Except.ok.inj h
  intro c key n hn
  dsimp only at hn
  by_cases hc : c = column
  · subst hc
    rw [Function.update_self, OrdMap.get?_eraseAll] at hn
    split at hn
    · cases hn
    · exact hsmall c key n hn
  · rw [Function.update_of_ne hc] at hn
    exact hsmall c key n hn

theorem ftsColumnChange_small {pk : Bytes} {old new : Option Properties} {column : String}
    (hsmall : t.SmallPostings)
    (h : ftsColumnChange pk old new t column = .ok t') : t'.SmallPostings := by
  rcases ftsColumnChange_eq_ok h with ⟨-, rfl⟩ | ⟨-, s, hs, hs'⟩
  · exact hsmall
  · have hmid : s.SmallPostings := by
      rcases hs with ⟨text, -, hs⟩ | ⟨-, rfl⟩
      · exact unindexText_small hsmall hs
      · exact hsmall
    rcases hs' with ⟨text, -, hs'⟩ | ⟨-, rfl⟩
    · exact indexText_small hmid hs'
    · exact hmid

omit [Unicode] in
theorem annColumnChange_keeps {table : String} {pk : Bytes} {old new : Option Properties}
    {column : String} (h : annColumnChange g table pk old new t column = .ok t') (c : String)
    (hc : t.ann c ≠ none) : t'.ann c ≠ none := by
  rw [annColumnChange] at h
  split at h
  · rwa [← Except.ok.inj h]
  · simp only [Except.bind_eq_ok, Except.ofOption_eq_ok] at h
    obtain ⟨i, -, i', -, h⟩ := h
    obtain rfl := Except.ok.inj h
    dsimp only
    by_cases hcc : c = column
    · subst hcc
      simp
    · rwa [Function.update_of_ne hcc]

theorem RowChange.maintainable {schema : TableSchema} {pk : PropValue} {k : Bytes}
    {old new : Option Properties} (h : RowChange g schema pk k old new t t') (hm : t.Maintainable) :
    t'.Maintainable := by
  obtain ⟨s, hann, -, hs, hfts, -, hsann⟩ := onRowChange_eq_ok h.key h.search
  have hstart : s.postings = t.postings := by rw [hs]
  refine ⟨h.frame.2.2.2 ▸ hm.nodup, fun c hc ↦ ?_, ?_⟩
  · rw [h.frame.2.2.2] at hc
    rw [hsann]
    exact Except.foldlM_invariant (fun s : TableStore ↦ s.ann c ≠ none) hann (hm.ann c hc)
      fun _ _ _ _ hP hstep ↦ annColumnChange_keeps hstep c hP
  · refine Except.foldlM_invariant SmallPostings hfts ?_
      fun _ _ _ _ hP hstep ↦ ftsColumnChange_small hP hstep
    rw [SmallPostings, hstart]
    exact hm.postings

omit [Unicode] in
theorem SmallPostings.foldl_dropIndexData (hsmall : t.SmallPostings) (columns : List String) :
    (columns.foldl dropIndexData t).SmallPostings := by
  rw [TableStore.foldl_dropIndexData]
  intro c key n hn
  dsimp only at hn
  split at hn
  · simp at hn
  · exact hsmall c key n hn

omit [Unicode] in
theorem Maintainable.retainValidIn (hm : t.Maintainable) (schema : Option TableSchema) :
    (t.retainValidIn schema).Maintainable := by
  have hfts : (t.ftsRetainValid schema).Maintainable := by
    have hsame := t.ftsRetainValid_fulltextOnly schema
    refine ⟨by rw [hsame]; exact hm.nodup, by rw [hsame]; exact hm.ann, ?_⟩
    rw [ftsRetainValid]
    dsimp only
    split
    · exact hm.postings
    · exact hm.postings.foldl_dropIndexData _
  rw [TableStore.retainValidIn, annRetainValid]
  split
  · exact hfts
  · refine ⟨hfts.nodup.filter _, fun c hc ↦ ?_, hfts.postings⟩
    obtain ⟨hc, hvector⟩ := List.mem_filter.mp hc
    dsimp only
    rw [if_neg fun hgone ↦ by simpa [hvector] using (List.mem_filter.mp hgone).2]
    exact hfts.ann c hc

omit [Unicode] in
theorem Maintainable.ensureTableIn {schema : TableSchema} (hm : t.Maintainable)
    (h : t.ensureTableIn schema = .ok t') : t'.Maintainable := by
  rcases ensureTableIn_eq_ok h with ⟨-, h⟩ | ⟨old, -, -, rfl⟩ | ⟨old, s, -, hmig, rfl⟩
  · exact hm.congr (by rw [adoptIn_frame h]) (by rw [adoptIn_frame h]) (by rw [adoptIn_frame h])
  · exact hm
  · obtain ⟨scanned, hmigrated⟩ := migrateIn_migrated hmig
    exact (hm.congr hmigrated.search.annColumns hmigrated.search.ann
      hmigrated.search.postings).retainValidIn _

/-- **Every operation leaves the search indexes so that removals can be followed.** -/
theorem Maintainable.applyOp (hm : t.Maintainable) {op : DbOp} (h : t.applyOp g op = .ok t') :
    t'.Maintainable := by
  cases op with
  | rows ref op =>
    simp only [TableStore.applyOp, Except.bind_eq_ok] at h
    obtain ⟨-, -, schema, -, h⟩ := h
    have hsteps := applyRowOp_steps (fun _ ↦ trivial) (fun _ _ _ _ ↦ trivial) op.gives_true h
    clear h
    induction hsteps with
    | refl => exact hm
    | tail _ hstep ih =>
      cases hstep with
      | row hchange _ => exact hchange.maintainable ih
      | counter n => exact ih.congr rfl rfl rfl
  | createTable schema =>
    obtain ⟨⟨b, s⟩, hs, rfl⟩ := Except.map_eq_ok.mp h
    rcases createTableIn_eq_ok hs with ⟨-, h⟩ | ⟨-, rfl⟩
    · exact hm.congr (by rw [adoptIn_frame h]) (by rw [adoptIn_frame h]) (by rw [adoptIn_frame h])
    · exact hm
  | ensureTable schema => exact hm.ensureTableIn h
  | dropTable name =>
    obtain ⟨⟨b, s⟩, hs, rfl⟩ := Except.map_eq_ok.mp h
    rcases dropTableIn_eq_ok hs with ⟨-, rfl⟩ | ⟨schema, -, rfl⟩
    · exact hm
    · refine Maintainable.retainValidIn (?_ : Maintainable _) none
      exact hm.congr rfl rfl rfl
  | createIndex table column =>
    obtain ⟨old, schema, -, -, h⟩ := createIndex_eq_ok h
    exact hm.ensureTableIn h
  | dropIndex table column =>
    obtain ⟨old, schema, -, -, h⟩ := dropIndex_eq_ok h
    exact hm.ensureTableIn h
  | createFulltextIndex table column =>
    obtain ⟨⟨b, s⟩, hs, rfl⟩ := Except.map_eq_ok.mp h
    have hsame := createFulltextIndexIn_fulltextOnly hs
    refine ⟨by rw [hsame]; exact hm.nodup, by rw [hsame]; exact hm.ann, ?_⟩
    rcases createFulltextIndexIn_eq_ok hs with rfl | ⟨-, -, s', schema, rows, rfl, -, hloop⟩
    · exact hm.postings
    · refine Except.foldlM_invariant SmallPostings hloop (hm.postings.foldl_dropIndexData [column])
        fun row _ s s' hP hstep ↦ ?_
      rw [indexRow] at hstep
      split at hstep
      · simp only [Except.bind_eq_ok] at hstep
        obtain ⟨k, -, hstep⟩ := hstep
        exact indexText_small hP hstep
      · rwa [← Except.ok.inj hstep]
  | dropFulltextIndex table column =>
    obtain rfl := Except.ok.inj h
    rw [TableStore.dropFulltextIndexIn]
    split
    · exact ⟨hm.nodup, hm.ann, hm.postings.foldl_dropIndexData [column]⟩
    · exact hm
  | createVectorIndex table column options =>
    obtain ⟨⟨b, s⟩, hs, rfl⟩ := Except.map_eq_ok.mp h
    rcases createVectorIndexIn_eq_ok hs with rfl | ⟨hnot, -, schema, rows, i, -, -, rfl⟩
    · exact hm
    · refine ⟨List.nodup_append.mpr ⟨hm.nodup, List.nodup_singleton _, fun a ha b hb ↦ ?_⟩,
        fun c hc ↦ ?_, hm.postings⟩
      · rw [List.mem_singleton.mp hb]
        exact fun hab ↦ hnot (hab ▸ ha)
      · dsimp only at hc ⊢
        by_cases hcc : c = column
        · subst hcc
          simp
        · rw [Function.update_of_ne hcc]
          exact hm.ann c ((List.mem_append.mp hc).resolve_right (by simpa using hcc))
  | dropVectorIndex table column =>
    obtain rfl := Except.ok.inj h
    rw [TableStore.dropVectorIndexIn]
    split
    · refine ⟨hm.nodup.erase _, fun c hc ↦ ?_, hm.postings⟩
      obtain ⟨hne, hc⟩ := hm.nodup.mem_erase_iff.mp hc
      dsimp only
      rw [Function.update_of_ne hne]
      exact hm.ann c hc
    · exact hm

/-! ## Removals succeed

A removal has no checks, so whatever fails in it fails after the row was found. Under the invariant
nothing does. -/

omit [Unicode] in
theorem annColumnChange_none_isOk {table column : String} {pk : Bytes} {old : Option Properties}
    (h : t.ann column ≠ none) : ∃ t', annColumnChange g table pk old none t column = .ok t' := by
  rw [annColumnChange]
  split
  · exact ⟨_, rfl⟩
  · obtain ⟨i, hi⟩ := Option.ne_none_iff_exists'.mp h
    rw [hi]
    have hchange : ∃ i', i.onChange g pk (old.bind (·.get? column)) none = .ok i' := by
      rw [Ann.Hnsw.onChange]
      split
      · exact ⟨_, rfl⟩
      · exact ⟨_, rfl⟩
    obtain ⟨i', hi'⟩ := hchange
    refine ⟨{ t with ann := Function.update t.ann column (some i') }, ?_⟩
    simp only [Except.ofOption, Except.ok_bind, Option.bind_none, hi']
    rfl

theorem ftsColumnChange_none_isOk {column : String} {pk : Bytes} {old : Option Properties}
    (h : ∀ text, textOf old column = some text → ∃ tf, termFrequencies (tokenize text) = .ok tf) :
    ∃ t', ftsColumnChange pk old none t column = .ok t' := by
  have hnew : textOf none column = none := rfl
  rw [ftsColumnChange, hnew]
  split
  · exact ⟨_, rfl⟩
  · cases htext : textOf old column with
    | none => exact ⟨_, rfl⟩
    | some text =>
      obtain ⟨tf, htf⟩ := h text htext
      dsimp only
      rw [unindexText, htf]
      exact ⟨_, rfl⟩

theorem Maintainable.exists_termFrequencies (hm : t.Maintainable) (hf : t.FulltextInv) {c : String}
    (hc : c ∈ t.ftsColumns) {k : Bytes} {text : String} (hk : (t.textsOf c).get? k = some text) :
    ∃ tf, termFrequencies (tokenize text) = .ok tf := by
  refine TableStore.exists_termFrequencies fun term ↦ ?_
  by_cases hterm : term ∈ tokenize text
  · exact hm.postings c _ _
      (((hf.mirrors c hc).postings _ _).mpr ⟨k, text, term, hk, hterm, rfl, rfl⟩)
  · rw [List.count_eq_zero_of_not_mem hterm]
    norm_num

/-- **Following a removal succeeds.** -/
theorem onRowChange_none_isOk {schema : TableSchema} {pk : PropValue} {k : Bytes} {o : Properties}
    (hk : sortableKey pk = some k) (hann : ∀ c ∈ t.annColumns, t.ann c ≠ none)
    (htext : ∀ c ∈ t.ftsColumns, ∀ text, textOf (some o) c = some text →
      ∃ tf, termFrequencies (tokenize text) = .ok tf) :
    ∃ t', t.onRowChange g schema pk (some o) none = .ok t' := by
  rw [onRowChange]
  split
  · exact ⟨_, rfl⟩
  rw [sortableEncode_eq_ok.mpr hk, Except.ok_bind]
  obtain ⟨s, hs, -, hcolumns⟩ := @Except.foldlM_isOk _ _ _
    (annColumnChange g schema.name k (some o) none)
    (fun s : TableStore ↦ (∀ c ∈ t.annColumns, s.ann c ≠ none) ∧ s.ftsColumns = t.ftsColumns)
    t.annColumns t ⟨hann, rfl⟩ fun c hc s hP ↦ by
      obtain ⟨s', hs'⟩ := @annColumnChange_none_isOk D _ g s schema.name c k (some o) (hP.1 c hc)
      refine ⟨s', hs', fun c' hc' ↦ annColumnChange_keeps hs' c' (hP.1 c' hc'), ?_⟩
      rw [(annColumnChange_eq_ok hs').1.ftsColumns, hP.2]
  rw [hs, Except.ok_bind, hcolumns]
  obtain ⟨t', ht', -⟩ := @Except.foldlM_isOk _ _ _ (ftsColumnChange k (some o) none)
    (fun _ ↦ True) t.ftsColumns s trivial fun c hc s _ ↦ by
      obtain ⟨s', hs'⟩ := @ftsColumnChange_none_isOk _ s c k (some o) (htext c hc)
      exact ⟨s', hs', trivial⟩
  exact ⟨t', ht'⟩

omit [Unicode] in
theorem foldlM_removeIndexEntry_isOk {schema : TableSchema} {row : Row} {columns : List String}
    (h : ∀ c ∈ columns, Keyable schema c row) :
    ∃ t', columns.foldlM (removeIndexEntry schema row) t = .ok t' := by
  obtain ⟨t', ht', -⟩ := @Except.foldlM_isOk _ _ _ (removeIndexEntry schema row) (fun _ ↦ True)
    columns t trivial fun c hc s _ ↦ by
      rw [removeIndexEntry]
      cases hv : indexable row schema c with
      | none => exact ⟨s, rfl, trivial⟩
      | some v =>
        obtain ⟨k, hk⟩ := h c hc v hv
        exact ⟨{ s with index := Function.update s.index c ((s.index c).erase k) }, by
          dsimp only
          rw [hk]
          rfl, trivial⟩
  exact ⟨t', ht'⟩

/-! ## Access by key -/

/-- What a point access promises: `get` returns the row with this very key, and `delete` removes it
and nothing else, or does nothing when there is none. -/
structure PointAccess (g : Ann.Geometry D) (t : TableStore) (schema : TableSchema) (pk : PropValue) :
    Prop where
  get : ∀ row, t.getIn pk = some row ↔ t.HasRow schema row ∧ row.pk = pk
  absent : (∀ row, t.HasRow schema row → row.pk ≠ pk) → t.deleteRowIn g schema pk = .ok (false, t)
  present : ∀ row, t.HasRow schema row → row.pk = pk →
    ∃ t', t.deleteRowIn g schema pk = .ok (true, t') ∧
      (∀ row', t'.HasRow schema row' ↔ t.HasRow schema row' ∧ row' ≠ row) ∧
      (∀ c key, (t'.index c).get? key = some () ↔ (t.index c).get? key = some () ∧
        ¬(c ∈ schema.indexedColumns ∧ entryOf schema c row = some key)) ∧
      t'.schema = t.schema ∧ t'.counter = t.counter ∧ t'.ftsColumns = t.ftsColumns ∧
      t'.annColumns = t.annColumns

variable {schema : TableSchema} {pk : PropValue}

theorem RowChange.removed {k : Bytes} {row : Row}
    (h : RowChange g schema pk k (some row.values) none t t') (hrow : t.HasRow schema row) (hpk : row.pk = pk) :
    (∀ row', t'.HasRow schema row' ↔ t.HasRow schema row' ∧ row' ≠ row) ∧
      ∀ c key, (t'.index c).get? key = some () ↔ (t.index c).get? key = some () ∧
        ¬(c ∈ schema.indexedColumns ∧ entryOf schema c row = some key) := by
  have hentry : ∀ c, entryOf schema c ⟨pk, row.values⟩ = entryOf schema c row := fun c ↦ by
    rw [← hpk]
  refine ⟨fun row' ↦ ?_, fun c key ↦ ?_⟩
  · rw [h.hasRow_iff]
    have hkey : t.HasRow schema row' → (sortableKey row'.pk = some k ↔ row' = row) := by
      intro hrow'
      constructor
      · exact fun hk' ↦ hrow'.eq_of_key hrow hk' (hpk ▸ h.key)
      · rintro rfl
        rw [hpk, h.key]
    constructor
    · rintro (⟨-, -, hnone⟩ | ⟨hrow', hne⟩)
      · cases hnone
      · exact ⟨hrow', fun heq ↦ hne ((hkey hrow').mpr heq)⟩
    · rintro ⟨hrow', hne⟩
      exact .inr ⟨hrow', fun hk ↦ hne ((hkey hrow').mp hk)⟩
  · by_cases hc : c ∈ schema.indexedColumns
    · rcases h.index c hc with ⟨o, n, -, hn, -⟩ | ⟨-, heq⟩
      · cases hn
      · rw [heq, Option.bind_none, Option.bind_some, get?_addEntry, if_neg (by simp),
          get?_removeEntry, hentry]
        split
        next hkey => simp [hc, hkey]
        next hkey => simp [hkey]
    · rw [h.index_other c hc]
      simp [hc]

/-- **Point access respects the key** exactly when the key has the kind of the primary-key column,
or nothing is stored under its encoding; and `delete` needs the row's indexed values to be keys. -/
theorem pointAccess_iff (hm : t.Maintainable) (hf : t.FulltextInv) :
    PointAccess g t schema pk ↔
      (schema.pkKind = some (.of pk) ∨ ∀ k, sortableKey pk = some k → t.rows.get? k = none) ∧
        ∀ values, t.HasRow schema ⟨pk, values⟩ → ∀ c ∈ schema.indexedColumns,
          Keyable schema c ⟨pk, values⟩ := by
  constructor
  · intro h
    refine ⟨or_iff_not_imp_left.mpr fun hkind k hk ↦ ?_, fun values hrow ↦ ?_⟩
    · by_contra hne
      obtain ⟨values, hget⟩ := Option.ne_none_iff_exists'.mp hne
      have hrow := ((h.get ⟨pk, values⟩).mp (getIn_eq_some.mpr ⟨k, hk, hget, rfl⟩)).1
      exact hkind hrow.1
    · obtain ⟨t', hdelete, -⟩ := h.present _ hrow rfl
      obtain ⟨-, k, hk, hget⟩ := hrow
      rw [deleteRowIn, getIn_eq_some.mpr ⟨k, hk, hget, rfl⟩] at hdelete
      simp only [Except.bind_eq_ok] at hdelete
      obtain ⟨k', -, s, hs, -⟩ := hdelete
      exact (foldlM_index (f := fun c ↦ removeEntry (entryOf schema c ⟨pk, values⟩)) (fun c m ↦ by
        refine OrdMap.ext fun k ↦ ?_
        simp only [get?_removeEntry]
        split <;> rfl) (fun s c s' ↦ removeIndexEntry_eq_ok) hs).1
  · rintro ⟨hkind, hkeyable⟩
    have hget : ∀ row, t.getIn pk = some row ↔ t.HasRow schema row ∧ row.pk = pk := by
      intro row
      rw [getIn_eq_some]
      constructor
      · rintro ⟨k, hk, hget, rfl⟩
        have hkind' := hkind.resolve_right fun hnone ↦ by
          rw [hnone k hk] at hget
          cases hget
        exact ⟨⟨hkind', k, hk, hget⟩, rfl⟩
      · rintro ⟨⟨-, k, hk, hget⟩, rfl⟩
        exact ⟨k, hk, hget, rfl⟩
    refine ⟨hget, fun habsent ↦ ?_, fun row hrow hpk ↦ ?_⟩
    · have hnone : t.getIn pk = none := by
        by_contra hne
        obtain ⟨row, hrow⟩ := Option.ne_none_iff_exists'.mp hne
        obtain ⟨hrow, hpk⟩ := (hget row).mp hrow
        exact habsent row hrow hpk
      rw [deleteRowIn, hnone]
      rfl
    · subst hpk
      have hget' := (hget row).mpr ⟨hrow, rfl⟩
      obtain ⟨k, hk, hstored⟩ := hrow.2
      obtain ⟨s, hs⟩ := @foldlM_removeIndexEntry_isOk { t with rows := t.rows.erase k } schema row
        schema.indexedColumns (hkeyable row.values hrow)
      have hs' := foldlM_removeIndexEntry hs
      obtain ⟨t', ht'⟩ := @onRowChange_none_isOk _ D _ g s schema row.pk k row.values hk
        (by rw [hs']; exact hm.ann) fun c hc text htext ↦ by
          rw [hs'] at hc
          refine hm.exists_termFrequencies hf hc (k := k) ?_
          rw [get?_textsOf, hstored]
          exact htext
      have hdelete : t.deleteRowIn g schema row.pk = .ok (true, t') := by
        rw [deleteRowIn, hget', sortableEncode_eq_ok.mpr hk]
        simp only [Except.ok_bind]
        rw [hs, Except.ok_bind, ht']
        rfl
      rcases deleteRowIn_rowChange hdelete with rfl | ⟨k', o, hchange⟩
      · -- the row is gone from the row table
        obtain ⟨s', -, hsame, -, -, hsame', -⟩ := onRowChange_eq_ok hk ht'
        have hrows := hsame'.rows.trans hsame.rows
        rw [hs'] at hrows
        rw [hrows, OrdMap.get?_erase_self] at hstored
        cases hstored
      · obtain rfl : k' = k := Option.some.inj (hchange.key.symm.trans hk)
        obtain rfl : row.values = o := Option.some.inj (hstored.symm.trans hchange.old_eq)
        obtain ⟨hrows, hindex⟩ := hchange.removed hrow rfl
        exact ⟨t', hdelete, hrows, hindex, hchange.frame⟩

/-- **Point access** in every committed state. -/
theorem pointAccess_iff_of_reachable {P : DbOp → Prop} {r : RelRun} (h : RelRun.Reachable g P r)
    (n : String) (schema : TableSchema) (pk : PropValue) :
    PointAccess g (r.store n) schema pk ↔
      (schema.pkKind = some (.of pk) ∨
        ∀ k, sortableKey pk = some k → (r.store n).rows.get? k = none) ∧
        ∀ values, (r.store n).HasRow schema ⟨pk, values⟩ → ∀ c ∈ schema.indexedColumns,
          Keyable schema c ⟨pk, values⟩ := by
  obtain ⟨hm, hf⟩ := h.induction (fun t _ ↦ t.Maintainable ∧ t.FulltextInv)
    ⟨maintainable_fresh, fulltextInv_fresh⟩
    (fun t a op t' _ hi hstep ↦ ⟨hi.1.applyOp hstep, hi.2.applyOp hstep⟩) n
  exact pointAccess_iff hm hf

theorem TableInv.pointAccess_iff (hi : t.TableInv schema) (hm : t.Maintainable) (hf : t.FulltextInv) :
    PointAccess g t schema pk ↔
      schema.pkKind = some (.of pk) ∨ ∀ k, sortableKey pk = some k → t.rows.get? k = none := by
  rw [TableStore.pointAccess_iff hm hf]
  exact and_iff_left fun values hrow c hc ↦ (indexExact_iff.mp (hi.indexExact c hc)).1 _ hrow

end TableStore

namespace RelRun

/-- Register a table of points and insert one. -/
def pointTxs : List (List DbOp) :=
  [[.createTable (pointsSchema [])], [.rows ⟨pointsSchema [], true⟩ (.insertBulk [point] .error)]]

/-- The point is found under its key, and under the timestamp with its encoding. -/
private def pointCheck (r : RelRun) : Bool :=
  ((r.store "points").getIn (.int 1)).isSome && ((r.store "points").getIn (.timestamp 1)).isSome &&
    (r.store "points").schema.any fun schema ↦
      decide (schema.pkKind = some .int ∧ schema.indexedColumns = [])

private theorem exists_point : ∃ (r : RelRun) (schema : TableSchema),
    @Reachable Unicode.ascii ℕ _ Ann.flat (fun _ ↦ True) r ∧ (r.store "points").schema = some schema ∧
      schema.pkKind = some .int ∧ schema.indexedColumns = [] ∧
      ((r.store "points").getIn (.int 1)).isSome = true ∧
      ((r.store "points").getIn (.timestamp 1)).isSome = true := by
  obtain ⟨r, hr, hp⟩ := @exists_reachable Unicode.ascii ℕ _ Ann.flat (fun _ ↦ True) pointTxs pointCheck
    (by
      intro ops hops op hop
      simp only [pointTxs, List.mem_cons, List.not_mem_nil, or_false] at hops
      rcases hops with rfl | rfl <;> rw [List.mem_singleton] at hop <;> subst hop <;>
        exact ⟨trivial, by decide +kernel⟩) (by decide +kernel)
  simp only [pointCheck, Bool.and_eq_true, Option.any_eq_true, decide_eq_true_eq] at hp
  obtain ⟨⟨hint, htimestamp⟩, schema, hschema, hkind, hindexed⟩ := hp
  exact ⟨r, schema, hr, hschema, hkind, hindexed, hint, htimestamp⟩

/-- Access by the integer key. -/
theorem pointAccess_int : ∃ (r : RelRun) (schema : TableSchema),
    (r.store "points").schema = some schema ∧ ((r.store "points").getIn (.int 1)).isSome = true ∧
      @TableStore.PointAccess Unicode.ascii ℕ _ Ann.flat (r.store "points") schema (.int 1) := by
  obtain ⟨r, schema, hr, hschema, hkind, hindexed, hint, -⟩ := exists_point
  refine ⟨r, schema, hschema, hint, (@TableStore.pointAccess_iff_of_reachable Unicode.ascii ℕ _
    Ann.flat _ r hr "points" schema (.int 1)).mpr ⟨.inl hkind, fun values _ c hc ↦ ?_⟩⟩
  rw [hindexed] at hc
  cases hc

/-- A timestamp reaches the row of the integer with the same number. -/
theorem not_pointAccess_timestamp : ∃ (r : RelRun) (schema : TableSchema),
    @Reachable Unicode.ascii ℕ _ Ann.flat (fun _ ↦ True) r ∧ (r.store "points").schema = some schema ∧
      ¬@TableStore.PointAccess Unicode.ascii ℕ _ Ann.flat (r.store "points") schema (.timestamp 1) := by
  obtain ⟨r, schema, hr, hschema, hkind, -, -, htimestamp⟩ := exists_point
  refine ⟨r, schema, hr, hschema, fun h ↦ ?_⟩
  obtain ⟨row, hrow⟩ := Option.isSome_iff_exists.mp htimestamp
  obtain ⟨⟨hkind', -⟩, hpk⟩ :=
    (@TableStore.PointAccess.get Unicode.ascii ℕ _ Ann.flat _ _ _ h row).mp hrow
  rw [hpk, hkind] at hkind'
  cases hkind'

end RelRun
