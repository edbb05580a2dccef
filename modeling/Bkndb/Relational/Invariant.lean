import Bkndb.Relational.Db

/-!
# The invariant of a registered table

Rows are valid, unique columns are unique, indexes hold exactly the entries of the rows, and columns
without an index have an empty one. The row changes of the previous module keep it, and so do
migrations.

## The invariant

`TableInv` is what a registered table keeps when it was registered over nothing. Each clause is
about the rows and one kind of index; a row change is described by what it does to one key
(`RowChange`), so each clause has one lemma, and `RowChange.tableInv` puts them together.
-/

open PropValue

/-- What every schema from the builder has: the primary key and the indexed columns are declared, and
unique columns are indexed. -/
structure TableSchema.Wf (schema : TableSchema) : Prop where
  pkDeclared : ∃ kind, schema.pkKind = some kind
  indexedDeclared : ∀ c ∈ schema.indexedColumns, ∃ col, schema.column c = some col
  uniqueIndexed : ∀ col ∈ schema.columns, col.unique = true →
    col.name ∈ schema.indexedColumns ∧ schema.column col.name = some col

/-! ## Schemas -/

namespace TableSchemaBuilder

theorem nodup_of_checkColumns {table : String} {columns : List ColumnSchema} {seen : List String}
    (h : columns.foldlM (checkColumn table) [] = .ok seen) :
    (columns.map (·.name)).Nodup := by
  suffices H : (columns.map (·.name)).Nodup ∧ ∀ n, n ∈ seen ↔ n ∈ columns.map (·.name) from H.1
  refine Except.foldlM_induction (fun done seen ↦ (done.map (·.name)).Nodup ∧
    ∀ n, n ∈ seen ↔ n ∈ done.map (·.name)) h ⟨by simp, by simp⟩ fun done c seen seen' _ hP hc ↦ ?_
  obtain ⟨hnodup, hseen⟩ := hP
  have hc' : c.name ∉ seen ∧ seen' = c.name :: seen := by
    rw [checkColumn] at hc
    cases hid : checkIdentifier "column" c.name with
    | error e => simp [hid, throw, throwThe, MonadExceptOf.throw] at hc
    | ok u =>
      rw [hid] at hc
      simp only [Except.bind_eq_ok, Except.guardOr_eq_ok] at hc
      obtain ⟨-, hnot, -, -, -, -, hc⟩ := hc
      refine ⟨hnot, ?_⟩
      split at hc
      · simp only [Except.bind_eq_ok] at hc
        obtain ⟨-, -, hc⟩ := hc
        exact (Except.ok.inj hc).symm
      · simp only [Except.bind_eq_ok] at hc
        obtain ⟨-, -, hc⟩ := hc
        exact (Except.ok.inj hc).symm
      · exact (Except.ok.inj hc).symm
  obtain ⟨hnot, rfl⟩ := hc'
  rw [hseen] at hnot
  refine ⟨?_, fun n ↦ ?_⟩
  · rw [List.map_append, List.nodup_append]
    refine ⟨hnodup, List.nodup_singleton _, fun a ha b hb ↦ ?_⟩
    rw [List.map_cons, List.map_nil, List.mem_singleton] at hb
    rintro rfl
    exact hnot (hb ▸ ha)
  · simp [hseen, or_comm]

theorem map_name_normalizePk (pk : String) (columns : List ColumnSchema) :
    (normalizePk pk columns).map (·.name) = columns.map (·.name) := by
  induction columns with
  | nil => rfl
  | cons c columns ih =>
    rw [normalizePk]
    split
    · rfl
    · rw [List.map_cons, List.map_cons, ih]

theorem unique_normalizePk {pk : String} {columns : List ColumnSchema}
    (hnodup : (columns.map (·.name)).Nodup) {c : ColumnSchema} (hc : c ∈ normalizePk pk columns)
    (hu : c.unique = true) : c.name ≠ pk := by
  induction columns with
  | nil => simp [normalizePk] at hc
  | cons a columns ih =>
    rw [List.map_cons, List.nodup_cons] at hnodup
    rw [normalizePk] at hc
    split at hc
    · rename_i hpk
      rw [beq_iff_eq] at hpk
      rcases List.mem_cons.mp hc with rfl | hc
      · simp at hu
      · rintro rfl
        exact hnodup.1 (hpk ▸ List.mem_map_of_mem hc)
    · rename_i hpk
      rcases List.mem_cons.mp hc with rfl | hc
      · simpa using hpk
      · exact ih hnodup.2 hc

theorem foldlM_addIndexed {table pk : String} {columns : List ColumnSchema} {names : List String}
    {indexed : List String} (h : names.foldlM (addIndexed table columns pk) [] = .ok indexed) :
    (∀ n ∈ indexed, ∃ c, columns.find? (·.name == n) = some c) ∧
      ∀ n ∈ names, n ≠ pk → n ∈ indexed := by
  refine Except.foldlM_induction (fun done indexed ↦
    (∀ n ∈ indexed, ∃ c, columns.find? (·.name == n) = some c) ∧
      ∀ n ∈ done, n ≠ pk → n ∈ indexed) h ⟨by simp, by simp⟩ fun done n s s' _ hP hs ↦ ?_
  obtain ⟨hdecl, hin⟩ := hP
  rw [addIndexed] at hs
  split at hs
  · rename_i hskip
    obtain rfl := Except.ok.inj hs
    refine ⟨hdecl, fun m hm hne ↦ ?_⟩
    rcases List.mem_append.mp hm with hm | hm
    · exact hin m hm hne
    · rw [List.mem_singleton.mp hm] at hne ⊢
      exact hskip.resolve_left hne
  · simp only [Except.bind_eq_ok, Except.ofOption_eq_ok] at hs
    obtain ⟨c, hc, -, -, hs⟩ := hs
    obtain rfl := Except.ok.inj hs
    refine ⟨fun m hm ↦ ?_, fun m hm hne ↦ ?_⟩
    · rcases List.mem_append.mp hm with hm | hm
      · exact hdecl m hm
      · exact ⟨c, List.mem_singleton.mp hm ▸ hc⟩
    · rcases List.mem_append.mp hm with hm | hm
      · exact List.mem_append_left _ (hin m hm hne)
      · exact List.mem_append_right _ hm

theorem find?_of_nodup {columns : List ColumnSchema} (hnodup : (columns.map (·.name)).Nodup)
    {c : ColumnSchema} (hc : c ∈ columns) : columns.find? (·.name == c.name) = some c := by
  induction columns with
  | nil => simp at hc
  | cons a columns ih =>
    rw [List.map_cons, List.nodup_cons] at hnodup
    rcases List.mem_cons.mp hc with rfl | hc
    · simp
    · have hne : a.name ≠ c.name := fun h ↦ hnodup.1 (h ▸ List.mem_map_of_mem hc)
      rw [List.find?_cons_of_neg (by simpa using hne), ih hnodup.2 hc]

/-- **What the builder accepts is well formed.** -/
theorem build_wf {b : TableSchemaBuilder} {schema : TableSchema} (h : b.build = .ok schema) :
    schema.Wf := by
  rw [build] at h
  cases hid : checkIdentifier "table" b.name with
  | error e => simp [hid, throw, throwThe, MonadExceptOf.throw] at h
  | ok u =>
    rw [hid] at h
    simp only [Except.bind_eq_ok, Except.ofOption_eq_ok] at h
    obtain ⟨⟨⟩, -, seen, hcols, pk, -, pkCol, hpkCol, ⟨⟩, -, ⟨⟩, -, indexed, hindexed, h⟩ := h
    obtain rfl := Except.ok.inj h
    have hnodup := nodup_of_checkColumns hcols
    have hnodup' : ((normalizePk pk b.columns).map (·.name)).Nodup := by
      rw [map_name_normalizePk]
      exact hnodup
    obtain ⟨hdecl, hin⟩ := foldlM_addIndexed hindexed
    refine ⟨?_, fun c hc ↦ hdecl c hc, fun c hc hu ↦ ⟨?_, find?_of_nodup hnodup' hc⟩⟩
    · have hmem : pk ∈ (normalizePk pk b.columns).map (·.name) := by
        rw [map_name_normalizePk]
        have hname : pkCol.name = pk := by simpa using List.find?_some hpkCol
        exact hname ▸ List.mem_map_of_mem (List.mem_of_find?_eq_some hpkCol)
      obtain ⟨c, hc, rfl⟩ := List.mem_map.mp hmem
      exact ⟨c.kind, by rw [TableSchema.pkKind, TableSchema.column, find?_of_nodup hnodup' hc]; rfl⟩
    · refine hin c.name (List.mem_append_right _ ?_) (unique_normalizePk hnodup hc hu)
      exact List.mem_map_of_mem (List.mem_filter.mpr ⟨hc, hu⟩)

end TableSchemaBuilder

/-! ## Validation -/

theorem checkValue_eq_ok {schema : TableSchema} {name : String} {v : PropValue} :
    checkValue schema name v = .ok () ↔
      ∃ c, schema.column name = some c ∧ (v.isNull = true ∨ ColumnKind.of v = c.kind) := by
  simp only [checkValue, Except.bind_eq_ok, Except.ofOption_eq_ok, Except.guardOr_eq_ok]

theorem validateRow_eq_ok {schema : TableSchema} {pk : PropValue} {values : Properties} :
    validateRow schema pk values = .ok () ↔
      pk.isNull = false ∧ checkValue schema schema.primaryKey pk = .ok () ∧
        (∀ e ∈ values.entries, checkValue schema e.1 e.2 = .ok ()) ∧
        ∀ c ∈ schema.columns, checkNotNull schema values c = .ok () := by
  simp only [validateRow, Except.bind_eq_ok, Except.guardOr_eq_ok]
  constructor
  · rintro ⟨-, hnull, ⟨⟩, hpk, ⟨⟩, hvals, hcols⟩
    exact ⟨hnull, hpk, Except.forM_eq_ok.mp hvals, Except.forM_eq_ok.mp hcols⟩
  · rintro ⟨hnull, hpk, hvals, hcols⟩
    exact ⟨⟨⟩, hnull, ⟨⟩, hpk, ⟨⟩, Except.forM_eq_ok.mpr hvals, Except.forM_eq_ok.mpr hcols⟩

theorem pkKind_of_validateRow {schema : TableSchema} {pk : PropValue} {values : Properties}
    (h : validateRow schema pk values = .ok ()) : schema.pkKind = some (.of pk) := by
  obtain ⟨hnull, hpk, -⟩ := validateRow_eq_ok.mp h
  obtain ⟨c, hc, hkind⟩ := checkValue_eq_ok.mp hpk
  rw [TableSchema.pkKind, hc, Option.map_some, hkind.resolve_left (by simp [hnull])]

/-! ## Entries

The entries of a row are determined by its key and its values; exactness of an index is then an
equivalence about single entries. -/

theorem eq_of_eqv_key {v w : PropValue} {a : Bytes} (hv : sortableKey v = some a)
    (h : v.eqv w = true) : w = v := by
  rcases sortableKey_cases hv with ⟨i, rfl | rfl, -⟩ | ⟨u, rfl, -⟩ | ⟨s, rfl, -⟩
  all_goals
    cases w <;> simp_all [eqv]

theorem isNull_of_sortableKey {v : PropValue} {a : Bytes} (h : sortableKey v = some a) :
    v.isNull = false := by
  cases v with
  | null => simp [sortableKey] at h
  | _ => rfl

theorem entryOf_congr {schema : TableSchema} {column : String} {pk pk' : PropValue} {k : Bytes}
    (h : sortableKey pk = some k) (h' : sortableKey pk' = some k) (values : Properties) :
    entryOf schema column ⟨pk, values⟩ = entryOf schema column ⟨pk', values⟩ := by
  have hkey : ∀ v, indexKey v pk = indexKey v pk' := fun v ↦ by
    rw [indexKey, indexKey, sortableEncode_eq_ok.mpr h, sortableEncode_eq_ok.mpr h']
  have hself : ∀ p, sortableKey p = some k → indexKey p pk' = .ok (k ++ k) := fun p hp ↦
    indexKey_eq_ok.mpr ⟨k, k, hp, h', rfl⟩
  have hsome : ∀ p, sortableKey p = some k → nonNull (some p) = some p := fun p hp ↦
    nonNull_eq_some.mpr ⟨rfl, isNull_of_sortableKey hp⟩
  by_cases hc : column = schema.primaryKey
  · simp [entryOf, indexable, Row.get, hc, hsome _ h, hsome _ h', hkey, hself _ h, hself _ h']
  · simp [entryOf, indexable, Row.get, hc, hkey]

namespace TableStore

variable {t t' : TableStore} {schema : TableSchema}

theorem indexExact_iff {column : String} : t.IndexExact schema column ↔
    (∀ row, t.HasRow schema row → Keyable schema column row) ∧
      ∀ k, (t.index column).get? k = some () ↔
        ∃ row, t.HasRow schema row ∧ entryOf schema column row = some k := by
  constructor
  · intro h
    refine ⟨fun row hrow v hv ↦ ?_, fun k ↦ ⟨fun hk ↦ ?_, ?_⟩⟩
    · obtain ⟨k, hk, -⟩ := h.complete row v hrow hv
      exact ⟨k, hk⟩
    · obtain ⟨row, v, hrow, hv, hkey⟩ := h.sound k hk
      exact ⟨row, hrow, entryOf_eq_some.mpr ⟨v, hv, hkey⟩⟩
    · rintro ⟨row, hrow, hentry⟩
      obtain ⟨v, hv, hkey⟩ := entryOf_eq_some.mp hentry
      obtain ⟨k', hk', hget⟩ := h.complete row v hrow hv
      rw [hkey, Except.ok.injEq] at hk'
      rw [hk', hget]
  · rintro ⟨henc, hiff⟩
    refine ⟨fun row v hrow hv ↦ ?_, fun k hk ↦ ?_⟩
    · obtain ⟨k, hk⟩ := henc row hrow v hv
      exact ⟨k, hk, (hiff k).mpr ⟨row, hrow, entryOf_eq_some.mpr ⟨v, hv, hk⟩⟩⟩
    · obtain ⟨row, hrow, hentry⟩ := (hiff k).mp hk
      obtain ⟨v, hv, hkey⟩ := entryOf_eq_some.mp hentry
      exact ⟨row, v, hrow, hv, hkey⟩

/-- No two rows share a value of a `UNIQUE` column. -/
def UniqueHolds (t : TableStore) (schema : TableSchema) (column : String) : Prop :=
  ∀ row row' v, t.HasRow schema row → t.HasRow schema row' →
    indexable row schema column = some v → indexable row' schema column = some v → row = row'

/-- The invariant of a registered table. -/
structure TableInv (t : TableStore) (schema : TableSchema) : Prop where
  wf : schema.Wf
  rowsKeyed : t.RowsKeyed schema
  rowsValid : ∀ row, t.HasRow schema row →
    validateRow schema row.pk row.values = .ok () ∧ row.values.get? schema.primaryKey = none
  indexExact : ∀ c ∈ schema.indexedColumns, t.IndexExact schema c
  indexEmpty : ∀ c, c ∉ schema.indexedColumns → t.index c = ∅
  unique : ∀ c ∈ schema.columns, c.unique = true → t.UniqueHolds schema c.name

/-- Valid rows have values of their columns' kinds. -/
theorem rowsTyped_of_valid (h : ∀ row, t.HasRow schema row →
    validateRow schema row.pk row.values = .ok ()) : t.RowsTyped schema := by
  intro row hrow column c v hcol hget
  rw [Row.get] at hget
  split at hget
  · rename_i hpk
    rw [Option.some_inj] at hget
    have hkind := hrow.1
    rw [TableSchema.pkKind, ← hpk, hcol, Option.map_some, Option.some_inj] at hkind
    exact .inr (hget ▸ hkind.symm)
  · obtain ⟨-, -, hvals, -⟩ := validateRow_eq_ok.mp (h row hrow)
    obtain ⟨c', hc', hkind⟩ := checkValue_eq_ok.mp (hvals (column, v) (OrdMap.mem_entries.mpr hget))
    rw [hcol, Option.some_inj] at hc'
    exact hc' ▸ hkind

theorem TableInv.consistent (h : t.TableInv schema) : t.Consistent schema :=
  ⟨h.wf.pkDeclared, h.rowsKeyed, rowsTyped_of_valid fun row hrow ↦ (h.rowsValid row hrow).1,
    h.indexExact⟩

theorem tableInv_of_empty (hwf : schema.Wf) (hrows : t.rows = ∅) (hindex : ∀ c, t.index c = ∅) :
    t.TableInv schema := by
  have hnone : ∀ row, ¬t.HasRow schema row := by
    rintro row ⟨-, k, -, hget⟩
    rw [hrows] at hget
    simp at hget
  refine ⟨hwf, fun k values hget ↦ by rw [hrows] at hget; simp at hget,
    fun row h ↦ absurd h (hnone row), fun c _ ↦ ⟨fun row v h ↦ absurd h (hnone row), fun k hk ↦ ?_⟩,
    fun c _ ↦ hindex c, fun c _ _ row _ _ h ↦ absurd h (hnone row)⟩
  rw [hindex c] at hk
  simp at hk

/-! ## Row changes

The old row's entries go and the new row's come. A column whose value did not change is skipped by
the source, and has the same entry on both sides. -/

variable [Unicode] {D : Type} [LinearOrder D] {g : Ann.Geometry D} {pk : PropValue} {k : Bytes}
  {old new : Option Properties}

/-- The rows after a change. -/
theorem RowChange.hasRow_iff (h : RowChange g schema pk k old new t t') {row : Row} :
    t'.HasRow schema row ↔
      (schema.pkKind = some (.of row.pk) ∧ sortableKey row.pk = some k ∧ new = some row.values) ∨
        (t.HasRow schema row ∧ sortableKey row.pk ≠ some k) := by
  simp only [HasRow, h.get?_rows]
  constructor
  · rintro ⟨hkind, k', hk', hget⟩
    split at hget
    · rename_i heq
      exact .inl ⟨hkind, heq ▸ hk', hget⟩
    · rename_i hne
      exact .inr ⟨⟨hkind, k', hk', hget⟩, fun h ↦ hne (by rw [hk', Option.some_inj] at h; exact h)⟩
  · rintro (⟨hkind, hk', hnew⟩ | ⟨⟨hkind, k', hk', hget⟩, hne⟩)
    · exact ⟨hkind, k, hk', by rw [if_pos rfl, hnew]⟩
    · refine ⟨hkind, k', hk', ?_⟩
      rw [if_neg fun heq : k' = k ↦ hne (heq ▸ hk'), hget]

theorem RowChange.old_row (hi : t.TableInv schema) (h : RowChange g schema pk k old new t t')
    {o : Properties} (ho : old = some o) :
    ∃ row, t.HasRow schema row ∧ sortableKey row.pk = some k ∧ row.values = o ∧
      ∀ c, entryOf schema c ⟨pk, o⟩ = entryOf schema c row := by
  obtain ⟨pk', hk', hrow⟩ := hi.rowsKeyed k o (h.old_eq.trans ho)
  exact ⟨⟨pk', o⟩, hrow, hk', rfl, fun c ↦ entryOf_congr h.key hk' o⟩

theorem RowChange.new_row (h : RowChange g schema pk k old new t t') {n : Properties}
    (hn : new = some n) : t'.HasRow schema ⟨pk, n⟩ :=
  h.hasRow_iff.mpr (.inl ⟨pkKind_of_validateRow (h.valid n hn).1, h.key, hn⟩)

theorem RowChange.eq_new {row : Row} (h : RowChange g schema pk k old new t t') {n : Properties}
    (hn : new = some n) (hkind : schema.pkKind = some (.of row.pk))
    (hk : sortableKey row.pk = some k) (hval : new = some row.values) : row = ⟨pk, n⟩ := by
  have hkind' : ColumnKind.of row.pk = .of pk := by
    rw [pkKind_of_validateRow (h.valid n hn).1, Option.some_inj] at hkind
    exact hkind.symm
  rw [hn, Option.some_inj] at hval
  have hpk := sortableKey_inj hkind' hk h.key
  cases row
  simp_all

theorem RowChange.replaced_row (h : RowChange g schema pk k old new t t') {o n : Properties}
    (ho : old = some o) (hn : new = some n) : t.HasRow schema ⟨pk, o⟩ :=
  ⟨pkKind_of_validateRow (h.valid n hn).1, k, h.key, h.old_eq.trans ho⟩

omit [Unicode] in
theorem indexable_eq_of_same {c : String} {row row' : Row} {v : PropValue} {a : Bytes}
    (hsame : sameIndexable schema c row row' = true) (hv : indexable row schema c = some v)
    (ha : sortableKey v = some a) : indexable row' schema c = some v := by
  rw [sameIndexable, hv] at hsame
  cases hw : indexable row' schema c with
  | none => simp [hw, eqvOption] at hsame
  | some w =>
    rw [hw, eqvOption] at hsame
    rw [eq_of_eqv_key ha hsame]

theorem RowChange.same_indexable (hi : t.TableInv schema) (h : RowChange g schema pk k old new t t')
    {c : String} (hc : c ∈ schema.indexedColumns) {o n : Properties} (ho : old = some o)
    (hn : new = some n) (hsame : sameIndexable schema c ⟨pk, o⟩ ⟨pk, n⟩ = true) :
    indexable ⟨pk, n⟩ schema c = indexable ⟨pk, o⟩ schema c := by
  cases hvo : indexable ⟨pk, o⟩ schema c with
  | none =>
    rw [sameIndexable, hvo] at hsame
    cases hvn : indexable ⟨pk, n⟩ schema c with
    | none => rfl
    | some w => simp [hvn, eqvOption] at hsame
  | some v =>
    obtain ⟨k', hk', -⟩ := (hi.indexExact c hc).complete _ v (h.replaced_row ho hn) hvo
    obtain ⟨a, b, ha, -⟩ := indexKey_eq_ok.mp hk'
    exact indexable_eq_of_same hsame hvo ha

theorem RowChange.encodable_new (hi : t.TableInv schema) (h : RowChange g schema pk k old new t t')
    {c : String} (hc : c ∈ schema.indexedColumns) {n : Properties} (hn : new = some n) :
    Keyable schema c ⟨pk, n⟩ := by
  rcases h.index c hc with ⟨o, n', ho, hn', hsame, -⟩ | ⟨henc, -⟩
  · obtain rfl : n = n' := by rw [hn, Option.some_inj] at hn'; exact hn'
    intro v hv
    rw [h.same_indexable hi hc ho hn hsame] at hv
    obtain ⟨k', hk', -⟩ := (hi.indexExact c hc).complete _ v (h.replaced_row ho hn) hv
    exact ⟨k', hk'⟩
  · exact henc n hn

/-- An index after the change: the new entry, and the other entries of before. -/
theorem RowChange.get?_index (hi : t.TableInv schema) (h : RowChange g schema pk k old new t t')
    {c : String} (hc : c ∈ schema.indexedColumns) (k' : Bytes) :
    (t'.index c).get? k' = some () ↔
      (new.bind fun n ↦ entryOf schema c ⟨pk, n⟩) = some k' ∨
        ((t.index c).get? k' = some () ∧
          (old.bind fun o ↦ entryOf schema c ⟨pk, o⟩) ≠ some k') := by
  rcases h.index c hc with ⟨o, n, ho, hn, hsame, heq⟩ | ⟨-, heq⟩
  · -- the entry of the row is the same, and it is there
    have hentry : entryOf schema c ⟨pk, n⟩ = entryOf schema c ⟨pk, o⟩ := by
      rw [entryOf, entryOf, h.same_indexable hi hc ho hn hsame]
    rw [heq, ho, hn, Option.bind_some, Option.bind_some, hentry]
    constructor
    · intro hget
      by_cases hk' : entryOf schema c ⟨pk, o⟩ = some k'
      · exact .inl hk'
      · exact .inr ⟨hget, hk'⟩
    · rintro (hk' | ⟨hget, -⟩)
      · exact ((indexExact_iff.mp (hi.indexExact c hc)).2 k').mpr
          ⟨_, h.replaced_row ho hn, hk'⟩
      · exact hget
  · rw [heq, get?_addEntry, get?_removeEntry]
    split_ifs with hnew hold
    · simp [hnew]
    · simp [hnew, hold]
    · simp [hnew, hold]

theorem RowChange.indexExact (hi : t.TableInv schema) (h : RowChange g schema pk k old new t t')
    {c : String} (hc : c ∈ schema.indexedColumns) : t'.IndexExact schema c := by
  have hexact := indexExact_iff.mp (hi.indexExact c hc)
  obtain ⟨col, hcol⟩ := hi.wf.indexedDeclared c hc
  refine indexExact_iff.mpr ⟨fun row hrow ↦ ?_, fun k' ↦ ?_⟩
  · rcases h.hasRow_iff.mp hrow with ⟨hkind, hk, hn⟩ | ⟨hrow, -⟩
    · rw [h.eq_new hn hkind hk hn]
      exact h.encodable_new hi hc hn
    · exact hexact.1 row hrow
  -- the entry of a row that stays is not the entry of the row that goes
  have hstays : ∀ row, t.HasRow schema row → sortableKey row.pk ≠ some k →
      entryOf schema c row = some k' →
      (old.bind fun o ↦ entryOf schema c ⟨pk, o⟩) ≠ some k' := by
    intro row hrow hne hentry hold
    obtain ⟨o, ho, hold⟩ := Option.bind_eq_some_iff.mp hold
    obtain ⟨row₀, hrow₀, hk₀, -, hentry₀⟩ := h.old_row hi ho
    rw [hentry₀] at hold
    have heq : row = row₀ := IndexRow.eq_of_key (hi.consistent.rowsTyped.typedAt _) hcol
      ⟨hrow, entryOf_eq_some.mp hentry⟩ ⟨hrow₀, entryOf_eq_some.mp hold⟩
    exact hne (heq ▸ hk₀)
  rw [h.get?_index hi hc]
  constructor
  · rintro (hnew | ⟨hget, hold⟩)
    · obtain ⟨n, hn, hentry⟩ := Option.bind_eq_some_iff.mp hnew
      exact ⟨⟨pk, n⟩, h.new_row hn, hentry⟩
    · obtain ⟨row, hrow, hentry⟩ := (hexact.2 k').mp hget
      refine ⟨row, h.hasRow_iff.mpr (.inr ⟨hrow, fun hk ↦ hold ?_⟩), hentry⟩
      rw [← h.old_eq, hrow.get?_rows hk, Option.bind_some, entryOf_congr h.key hk]
      exact hentry
  · rintro ⟨row, hrow, hentry⟩
    rcases h.hasRow_iff.mp hrow with ⟨hkind, hk, hn⟩ | ⟨hrow, hne⟩
    · left
      rw [hn, Option.bind_some, ← h.eq_new hn hkind hk hn]
      exact hentry
    · exact .inr ⟨(hexact.2 k').mpr ⟨row, hrow, hentry⟩, hstays row hrow hne hentry⟩

theorem RowChange.unique_new (hi : t.TableInv schema) (h : RowChange g schema pk k old new t t')
    {n : Properties} (hn : new = some n) {c : ColumnSchema} (hc : c ∈ schema.columns)
    (hu : c.unique = true) {v : PropValue} (hv : indexable ⟨pk, n⟩ schema c.name = some v)
    {row : Row} (hrow : t.HasRow schema row) (hv' : indexable row schema c.name = some v) :
    sortableKey row.pk = some k := by
  obtain ⟨hindexed, hcol⟩ := hi.wf.uniqueIndexed c hc hu
  obtain ⟨k', hk'⟩ := h.encodable_new hi hindexed hn v hv
  obtain ⟨a, b, ha, -⟩ := indexKey_eq_ok.mp hk'
  have hkind : ColumnKind.of v = c.kind := (hi.consistent.rowsTyped.typedAt _).kind_indexable hrow hcol hv'
  obtain ⟨changedFrom, hfrom, hcheck⟩ := h.unique n hn
  have hcol' := Except.forM_eq_ok.mp hcheck c (List.mem_filter.mpr ⟨hc, hu⟩)
  rw [checkUniqueColumn, hv] at hcol'
  dsimp only at hcol'
  split at hcol'
  · -- an unchanged value was the old row's before
    rename_i hany
    obtain ⟨from', rfl, heqv⟩ := Option.any_eq_true .. |>.mp hany
    rcases hfrom with hfrom | ⟨o, ho, hfrom⟩
    · simp at hfrom
    rw [Option.some_inj] at hfrom
    subst hfrom
    obtain ⟨w, hw, hwv⟩ : ∃ w, Row.get ⟨pk, o⟩ schema c.name = some w ∧ w.eqv v = true := by
      cases hget : Row.get ⟨pk, o⟩ schema c.name with
      | none => simp [hget, eqvOption] at heqv
      | some w => exact ⟨w, rfl, by simpa [hget, eqvOption] using heqv⟩
    have hold := h.replaced_row ho hn
    have hnull : w.isNull = false := by
      cases w with
      | null => cases v <;> simp_all [eqv, sortableKey]
      | _ => rfl
    have hwi : indexable ⟨pk, o⟩ schema c.name = some w := nonNull_eq_some.mpr ⟨hw, hnull⟩
    obtain ⟨k₂, hk₂, -⟩ := (hi.indexExact c.name hindexed).complete _ w hold hwi
    obtain ⟨a₂, b₂, ha₂, -⟩ := indexKey_eq_ok.mp hk₂
    have hvw : v = w := eq_of_eqv_key ha₂ hwv
    have := hi.unique c hc hu row ⟨pk, o⟩ v hrow hold hv' (hvw ▸ hwi)
    rw [this]
    exact h.key
  · -- otherwise the lookup would have found the other row
    rw [Except.bind_eq_ok] at hcol'
    obtain ⟨others, hlookup, hall⟩ := hcol'
    obtain ⟨rows, hrows, -, hmem⟩ := indexLookupEqIn_spec hi.consistent.indexed hindexed hcol hkind ha
    rw [hrows, Except.ok.injEq] at hlookup
    subst hlookup
    rw [Except.guardOr_eq_ok, List.all_eq_true] at hall
    have heqv := hall row ((hmem row).mpr ⟨hrow, hv'⟩)
    obtain ⟨-, k₂, hk₂, -⟩ := hrow
    have hpk : pk = row.pk := eq_of_eqv_key hk₂ heqv
    rw [← hpk]
    exact h.key

theorem RowChange.rowsKeyed (hi : t.RowsKeyed schema) (h : RowChange g schema pk k old new t t') :
    t'.RowsKeyed schema := by
  intro k' values hget
  rw [h.get?_rows] at hget
  split at hget
  · rename_i heq
    exact ⟨pk, heq ▸ h.key, h.new_row hget⟩
  · rename_i hne
    obtain ⟨pk', hk', hrow⟩ := hi k' values hget
    refine ⟨pk', hk', h.hasRow_iff.mpr (.inr ⟨hrow, fun hk ↦ hne ?_⟩)⟩
    rw [hk', Option.some_inj] at hk
    exact hk

theorem RowChange.rowsValid (hi : ∀ row, t.HasRow schema row →
      validateRow schema row.pk row.values = .ok () ∧ row.values.get? schema.primaryKey = none)
    (h : RowChange g schema pk k old new t t') : ∀ row, t'.HasRow schema row →
      validateRow schema row.pk row.values = .ok () ∧
        row.values.get? schema.primaryKey = none := by
  intro row hrow
  rcases h.hasRow_iff.mp hrow with ⟨hkind, hk, hn⟩ | ⟨hrow, -⟩
  · have hpk : row.pk = pk := congrArg Row.pk (h.eq_new hn hkind hk hn)
    rw [hpk]
    exact h.valid row.values hn
  · exact hi row hrow

/-- **A row change keeps the invariant.** -/
theorem RowChange.tableInv (hi : t.TableInv schema) (h : RowChange g schema pk k old new t t') :
    t'.TableInv schema where
  wf := hi.wf
  rowsKeyed := h.rowsKeyed hi.rowsKeyed
  rowsValid := h.rowsValid hi.rowsValid
  indexExact := fun c hc ↦ h.indexExact hi hc
  indexEmpty := fun c hc ↦ by rw [h.index_other c hc, hi.indexEmpty c hc]
  unique := by
    intro c hc hu row row' v hrow hrow' hv hv'
    rcases h.hasRow_iff.mp hrow with ⟨hkind, hk, hn⟩ | ⟨hrow, hne⟩
    · have heq := h.eq_new hn hkind hk hn
      rcases h.hasRow_iff.mp hrow' with ⟨hkind', hk', hn'⟩ | ⟨hrow', hne'⟩
      · rw [h.eq_new hn' hkind' hk' hn', heq]
        rw [hn, Option.some_inj] at hn'
        rw [hn']
      · exact absurd (h.unique_new hi hn hc hu (heq ▸ hv) hrow' hv') hne'
    · rcases h.hasRow_iff.mp hrow' with ⟨hkind', hk', hn'⟩ | ⟨hrow', -⟩
      · have heq := h.eq_new hn' hkind' hk' hn'
        exact absurd (h.unique_new hi hn' hc hu (heq ▸ hv') hrow hv) hne
      · exact hi.unique c hc hu row row' v hrow hrow' hv hv'

theorem RowStep.tableInv {V : PropValue → Prop} (hi : t.TableInv schema) (h : RowStep g V schema t t') :
    t'.TableInv schema := by
  cases h with
  | row hchange _ => exact hchange.tableInv hi
  | counter n => exact ⟨hi.wf, hi.rowsKeyed, hi.rowsValid, fun c hc ↦
      ⟨(hi.indexExact c hc).complete, (hi.indexExact c hc).sound⟩, hi.indexEmpty, hi.unique⟩

end TableStore
