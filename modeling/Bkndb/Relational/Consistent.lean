import Bkndb.Relational.Table

/-!
# Consistent tables

What a table's physical state says: its rows, and which index entries they call for. A table is
consistent when its keys are keys of its primary-key kind, its values have the kinds of their
columns, and each index holds exactly the entries of the rows.

Reads of a consistent table succeed, and return rows of it.

## Three strengths

* `IndexesExact`: the indexes hold exactly the entries of the rows. This is what every operation
  keeps.
* `Indexed`: in addition the values in indexed columns have the kinds of their columns, so that an
  index key is cut at the right place. Index reads need this.
* `Consistent`: all values have the kinds of their columns.

The second and the third do not follow from the first, since a table may be registered over rows
that were written under another schema.
-/

open PropValue

/-- The kind of the primary key. -/
def TableSchema.pkKind (schema : TableSchema) : Option ColumnKind :=
  (schema.column schema.primaryKey).map (·.kind)

theorem TableSchema.primaryKeyColumn_of_pkKind {schema : TableSchema} {kind : ColumnKind}
    (h : schema.pkKind = some kind) : ∃ c, schema.primaryKeyColumn = .ok c ∧ c.kind = kind := by
  obtain ⟨c, hc, hkind⟩ := Option.map_eq_some_iff.mp h
  exact ⟨c, by rw [primaryKeyColumn, hc]; rfl, hkind⟩

namespace TableStore

/-- The table holds the row. -/
def HasRow (t : TableStore) (schema : TableSchema) (row : Row) : Prop :=
  schema.pkKind = some (.of row.pk) ∧
    ∃ k, sortableKey row.pk = some k ∧ t.rows.get? k = some row.values

/-- Every stored entry is a row. -/
def RowsKeyed (t : TableStore) (schema : TableSchema) : Prop :=
  ∀ k values, t.rows.get? k = some values →
    ∃ pk, sortableKey pk = some k ∧ t.HasRow schema ⟨pk, values⟩

/-- Every value of a declared column is null or has the column's kind. -/
def RowsTyped (t : TableStore) (schema : TableSchema) : Prop :=
  ∀ row, t.HasRow schema row → ∀ column c v, schema.column column = some c →
    row.get schema column = some v → v.isNull = true ∨ ColumnKind.of v = c.kind

/-- The same of one column. -/
def TypedAt (t : TableStore) (schema : TableSchema) (column : String) : Prop :=
  ∀ row, t.HasRow schema row → ∀ c v, schema.column column = some c →
    row.get schema column = some v → v.isNull = true ∨ ColumnKind.of v = c.kind

/-- The index of a column holds exactly the entries of the rows. -/
structure IndexExact (t : TableStore) (schema : TableSchema) (column : String) : Prop where
  /-- Each row with a value has its entry. -/
  complete : ∀ row v, t.HasRow schema row → indexable row schema column = some v →
    ∃ k, indexKey v row.pk = .ok k ∧ (t.index column).get? k = some ()
  /-- Each entry is that of a row. -/
  sound : ∀ k, (t.index column).get? k = some () →
    ∃ row v, t.HasRow schema row ∧ indexable row schema column = some v ∧
      indexKey v row.pk = .ok k

/-- A table whose indexes hold exactly the entries of its rows. -/
structure IndexesExact (t : TableStore) (schema : TableSchema) : Prop where
  pkDeclared : ∃ kind, schema.pkKind = some kind
  rowsKeyed : t.RowsKeyed schema
  indexExact : ∀ column ∈ schema.indexedColumns, t.IndexExact schema column

/-- No entry is that of a value of another kind, which would be cut at the wrong place. -/
structure Indexed (t : TableStore) (schema : TableSchema) : Prop
    extends t.IndexesExact schema where
  indexTyped : ∀ column ∈ schema.indexedColumns, t.TypedAt schema column

/-- A table all of whose values have the kinds of their columns. -/
structure Consistent (t : TableStore) (schema : TableSchema) : Prop where
  pkDeclared : ∃ kind, schema.pkKind = some kind
  rowsKeyed : t.RowsKeyed schema
  rowsTyped : t.RowsTyped schema
  indexExact : ∀ column ∈ schema.indexedColumns, t.IndexExact schema column

variable {t : TableStore} {schema : TableSchema}

theorem RowsTyped.typedAt (h : t.RowsTyped schema) (column : String) : t.TypedAt schema column :=
  fun row hrow c v ↦ h row hrow column c v

theorem Consistent.indexed (h : t.Consistent schema) : t.Indexed schema :=
  ⟨⟨h.pkDeclared, h.rowsKeyed, h.indexExact⟩, fun column _ ↦ h.rowsTyped.typedAt column⟩

/-! ## Rows -/

theorem HasRow.kind_eq {row row' : Row} (h : t.HasRow schema row) (h' : t.HasRow schema row') :
    ColumnKind.of row.pk = .of row'.pk := by
  have hkind := h.1
  rw [h'.1, Option.some_inj] at hkind
  exact hkind.symm

theorem hasRow_congr {schema' : TableSchema} (h : schema.pkKind = schema'.pkKind) {row : Row} :
    t.HasRow schema row ↔ t.HasRow schema' row := by
  rw [HasRow, HasRow, h]

theorem HasRow.get?_rows {row : Row} (h : t.HasRow schema row) {k : Bytes}
    (hk : sortableKey row.pk = some k) : t.rows.get? k = some row.values := by
  obtain ⟨-, k', hk', hget⟩ := h
  rw [hk, Option.some_inj] at hk'
  rw [hk', hget]

theorem HasRow.eq_of_key {row row' : Row} {k : Bytes} (h : t.HasRow schema row)
    (h' : t.HasRow schema row') (hk : sortableKey row.pk = some k)
    (hk' : sortableKey row'.pk = some k) : row = row' := by
  have hpk : row.pk = row'.pk := sortableKey_inj (h.kind_eq h') hk hk'
  have hget := h.get?_rows hk
  rw [h'.get?_rows hk', Option.some_inj] at hget
  cases row
  cases row'
  simp_all

theorem getIn_eq_some {pk : PropValue} {row : Row} :
    t.getIn pk = some row ↔
      ∃ k, sortableKey pk = some k ∧ t.rows.get? k = some row.values ∧ row.pk = pk := by
  rw [getIn]
  cases hk : sortableKey pk with
  | none => simp
  | some k =>
    simp only [Option.map_eq_some_iff, Option.some_inj, exists_eq_left']
    constructor
    · rintro ⟨values, hget, rfl⟩
      exact ⟨hget, rfl⟩
    · rintro ⟨hget, rfl⟩
      exact ⟨row.values, hget, rfl⟩

theorem HasRow.getIn {row : Row} (h : t.HasRow schema row) : t.getIn row.pk = some row := by
  obtain ⟨-, k, hk, hget⟩ := h
  exact getIn_eq_some.mpr ⟨k, hk, hget, rfl⟩

theorem hasRow_of_getIn {pk : PropValue} {row : Row} (hkind : schema.pkKind = some (.of pk))
    (h : t.getIn pk = some row) : t.HasRow schema row := by
  obtain ⟨k, hk, hget, rfl⟩ := getIn_eq_some.mp h
  exact ⟨hkind, k, hk, hget⟩

/-! ## Scans

A scan decodes every entry, and one entry that does not decode fails it. In a table of rows none
does. -/

/-- The row a stored entry decodes to. -/
def EntryRow (t : TableStore) (schema : TableSchema) (e : Bytes × Properties) (row : Row) : Prop :=
  t.HasRow schema row ∧ sortableKey row.pk = some e.1

theorem decodeBaseRow_spec (h : t.RowsKeyed schema) {kind : ColumnKind}
    (hkind : schema.pkKind = some kind) {e : Bytes × Properties} (he : e ∈ t.rows.entries) :
    ∃ row, decodeBaseRow kind e = .ok row ∧ t.EntryRow schema e row := by
  obtain ⟨pk, hk, hrow⟩ := h e.1 e.2 (OrdMap.mem_entries.mp he)
  refine ⟨⟨pk, e.2⟩, ?_, hrow, hk⟩
  have hof := hrow.1
  rw [hkind, Option.some_inj] at hof
  rw [decodeBaseRow, hof, decodeSortable_of_sortableKey hk]
  rfl

theorem map_decodeBaseRow_spec (h : t.RowsKeyed schema) {kind : ColumnKind}
    (hkind : schema.pkKind = some kind) {l : List (Bytes × Properties)}
    (hl : l ⊆ t.rows.entries) :
    ∃ rows, l.map (decodeBaseRow kind) = rows.map .ok ∧
      List.Forall₂ (t.EntryRow schema) l rows := by
  induction l with
  | nil => exact ⟨[], rfl, .nil⟩
  | cons e l ih =>
    obtain ⟨row, hdec, hrow⟩ := decodeBaseRow_spec h hkind (hl List.mem_cons_self)
    obtain ⟨rows, hrest, hrows⟩ := ih fun e he ↦ hl (List.mem_cons_of_mem _ he)
    exact ⟨row :: rows, by rw [List.map_cons, hdec, hrest, List.map_cons], .cons hrow hrows⟩

/-- What is read from a range of keys: the rows with a key in it, ascending. -/
structure RowsOfRange (t : TableStore) (schema : TableSchema) (lo hi : Bound Bytes)
    (rows : List Row) : Prop where
  ascending : rows.Pairwise fun a b ↦
    ∃ x y, sortableKey a.pk = some x ∧ sortableKey b.pk = some y ∧ x < y
  mem_iff : ∀ row, row ∈ rows ↔ t.HasRow schema row ∧
    ∃ k, sortableKey row.pk = some k ∧ lo.Above k ∧ hi.Below k

theorem RowsOfRange.nodup {lo hi : Bound Bytes} {rows : List Row}
    (h : t.RowsOfRange schema lo hi rows) : rows.Nodup := by
  refine h.ascending.imp ?_
  rintro a b ⟨x, y, hx, hy, hlt⟩ rfl
  rw [hx, Option.some_inj] at hy
  exact absurd (hy ▸ hlt) (lt_irrefl _)

theorem decodeRange_spec (h : t.RowsKeyed schema) {kind : ColumnKind}
    (hkind : schema.pkKind = some kind) (lo hi : Bound Bytes) :
    ∃ rows, (t.rows.range lo hi).map (decodeBaseRow kind) = rows.map .ok ∧
      t.RowsOfRange schema lo hi rows := by
  have hsub : t.rows.range lo hi ⊆ t.rows.entries := List.filter_subset_self ..
  obtain ⟨rows, hrows, hall⟩ := map_decodeBaseRow_spec h hkind hsub
  refine ⟨rows, hrows, ?_, fun row ↦ ⟨fun hmem ↦ ?_, ?_⟩⟩
  · refine hall.pairwise_right (t.rows.range_sorted lo hi) fun e e' row row' he he' hlt ↦ ?_
    exact ⟨e.1, e'.1, he.2, he'.2, hlt⟩
  · obtain ⟨e, he, hrow, hk⟩ := hall.exists_left hmem
    obtain ⟨-, hlo, hhi⟩ := OrdMap.mem_range.mp he
    exact ⟨hrow, e.1, hk, hlo, hhi⟩
  · rintro ⟨hrow, k, hk, hlo, hhi⟩
    obtain ⟨row', hmem, hrow', hk'⟩ :=
      hall.exists_right (OrdMap.mem_range.mpr ⟨hrow.get?_rows hk, hlo, hhi⟩)
    rw [hrow.eq_of_key hrow' hk hk']
    exact hmem

/-- **A scan returns every row once, in key order.** -/
theorem scanAllIn_spec (h : t.RowsKeyed schema) (hpk : ∃ kind, schema.pkKind = some kind) :
    ∃ rows, t.scanAllIn schema = .ok rows ∧ t.RowsOfRange schema .unbounded .unbounded rows := by
  obtain ⟨kind, hkind⟩ := hpk
  obtain ⟨c, hc, rfl⟩ := TableSchema.primaryKeyColumn_of_pkKind hkind
  obtain ⟨rows, hrows, hspec⟩ := decodeRange_spec h hkind .unbounded .unbounded
  refine ⟨rows, ?_, hspec⟩
  rw [OrdMap.range_unbounded] at hrows
  rw [scanAllIn, hc, Except.ok_bind, Except.mapM_eq_ok_iff]
  rw [← List.forall₂_eq_eq_eq] at hrows
  exact List.forall₂_map_right_iff.mp (List.forall₂_map_left_iff.mp hrows)

theorem RowsOfRange.mem_unbounded {rows : List Row}
    (h : t.RowsOfRange schema .unbounded .unbounded rows) (row : Row) :
    row ∈ rows ↔ t.HasRow schema row := by
  rw [h.mem_iff]
  refine ⟨fun hrow ↦ hrow.1, fun hrow ↦ ⟨hrow, ?_⟩⟩
  obtain ⟨-, k, hk, -⟩ := hrow
  exact ⟨k, hk, trivial, trivial⟩

/-! ## Index lookups

An entry is trusted only after its row was read and found to hold the value, so a stale entry costs
a lookup and returns nothing; a missing one loses a row. -/

/-- The row an index entry belongs to. -/
def IndexRow (t : TableStore) (schema : TableSchema) (column : String) (k : Bytes) (row : Row) :
    Prop :=
  t.HasRow schema row ∧ ∃ v, indexable row schema column = some v ∧ indexKey v row.pk = .ok k

theorem TypedAt.kind_indexable {column : String} (h : t.TypedAt schema column) {row : Row}
    (hrow : t.HasRow schema row) {c : ColumnSchema} (hcol : schema.column column = some c) {v : PropValue}
    (hv : indexable row schema column = some v) : ColumnKind.of v = c.kind := by
  obtain ⟨hget, hnull⟩ := nonNull_eq_some.mp hv
  rcases h row hrow c v hcol hget with h | h
  · simp [h] at hnull
  · exact h

theorem IndexRow.eq_of_key {column : String} (h : t.TypedAt schema column) {c : ColumnSchema}
    (hcol : schema.column column = some c) {k : Bytes} {row row' : Row}
    (hr : t.IndexRow schema column k row) (hr' : t.IndexRow schema column k row') : row = row' := by
  obtain ⟨hrow, v, hv, hk⟩ := hr
  obtain ⟨hrow', v', hv', hk'⟩ := hr'
  have hkind : ColumnKind.of v = .of v' := by
    rw [h.kind_indexable hrow hcol hv, h.kind_indexable hrow' hcol hv']
  obtain ⟨-, hpk⟩ := indexKey_inj hkind (hrow.kind_eq hrow') hk hk'
  obtain ⟨-, b, -, hb, -⟩ := indexKey_eq_ok.mp hk
  exact hrow.eq_of_key hrow' hb (hpk ▸ hb)

theorem resolveIndexRow_spec {column : String} (h : t.TypedAt schema column) {c : ColumnSchema}
    (hcol : schema.column column = some c) {k : Bytes} {row : Row}
    (hr : t.IndexRow schema column k row) :
    t.resolveIndexRow schema column c.kind (.of row.pk) k = .ok (some row) := by
  obtain ⟨hrow, v, hv, hk⟩ := hr
  obtain ⟨a, b, ha, hb, rfl⟩ := indexKey_eq_ok.mp hk
  rw [resolveIndexRow, ← h.kind_indexable hrow hcol hv, pkFromIndexKey_append ha hb,
    Except.ok_bind, hrow.getIn]
  simp only [hv, Option.bind_some, hk, Except.toOption, if_pos]
  rfl

theorem resolveIndexRowsIn_rows (h : t.Indexed schema) {column : String} {c : ColumnSchema}
    (hindexed : column ∈ schema.indexedColumns) (hcol : schema.column column = some c)
    (lo hi : Bound Bytes) :
    ∃ rows, t.resolveIndexRowsIn schema column ((t.index column).range lo hi) = .ok rows ∧
      List.Forall₂ (fun e row ↦ t.IndexRow schema column e.1 row)
        ((t.index column).range lo hi) rows := by
  obtain ⟨kind, hkind⟩ := h.pkDeclared
  obtain ⟨pk, hpk, rfl⟩ := TableSchema.primaryKeyColumn_of_pkKind hkind
  have hexact := h.indexExact column hindexed
  have hresolve : ∀ e ∈ (t.index column).range lo hi, ∃ row,
      t.resolveIndexRow schema column c.kind pk.kind e.1 = .ok (some row) ∧
        t.IndexRow schema column e.1 row := by
    intro e he
    obtain ⟨hget, -⟩ := OrdMap.mem_range.mp he
    obtain ⟨row, v, hrow, hv, hk⟩ := hexact.sound e.1 hget
    have hof := hrow.1
    rw [hkind, Option.some_inj] at hof
    exact ⟨row, hof ▸ resolveIndexRow_spec (h.indexTyped column hindexed) hcol ⟨hrow, v, hv, hk⟩, hrow, v, hv, hk⟩
  obtain ⟨rows, hrows⟩ := List.Forall₂.exists_of_forall hresolve
  have hmapM : ((t.index column).range lo hi).mapM
      (fun e ↦ t.resolveIndexRow schema column c.kind pk.kind e.1) = .ok (rows.map some) := by
    rw [Except.mapM_eq_ok_iff, List.forall₂_map_right_iff]
    exact hrows.imp fun _ _ h ↦ h.1
  refine ⟨rows, ?_, hrows.imp fun _ _ h ↦ h.2⟩
  rw [resolveIndexRowsIn, hcol, Except.ofOption, Except.ok_bind, hpk, Except.ok_bind, hmapM]
  simp [pure, Except.pure]

/-- What is read from a range of an index: the rows with an entry in it, once each. -/
theorem resolveIndexRowsIn_spec (h : t.Indexed schema) {column : String} {c : ColumnSchema}
    (hindexed : column ∈ schema.indexedColumns) (hcol : schema.column column = some c)
    (lo hi : Bound Bytes) :
    ∃ rows, t.resolveIndexRowsIn schema column ((t.index column).range lo hi) = .ok rows ∧
      rows.Nodup ∧ ∀ row, row ∈ rows ↔
        ∃ k, t.IndexRow schema column k row ∧ lo.Above k ∧ hi.Below k := by
  obtain ⟨rows, hresolve, hrows⟩ := resolveIndexRowsIn_rows h hindexed hcol lo hi
  refine ⟨rows, hresolve, ?_, fun row ↦ ⟨fun hmem ↦ ?_, ?_⟩⟩
  · refine hrows.pairwise_right ((t.index column).range_sorted lo hi) ?_
    rintro e e' row _ ⟨-, v, hv, hk⟩ ⟨-, v', hv', hk'⟩ hlt rfl
    rw [hv, Option.some_inj] at hv'
    rw [← hv', hk, Except.ok.injEq] at hk'
    exact absurd (hk' ▸ hlt) (lt_irrefl _)
  · obtain ⟨e, he, hrow⟩ := hrows.exists_left hmem
    obtain ⟨-, hlo, hhi⟩ := OrdMap.mem_range.mp he
    exact ⟨e.1, hrow, hlo, hhi⟩
  · rintro ⟨k, hrow, hlo, hhi⟩
    have hget : (t.index column).get? k = some () := by
      obtain ⟨hrow, v, hv, hk⟩ := hrow
      obtain ⟨k', hk', hget⟩ := (h.indexExact column hindexed).complete row v hrow hv
      rw [hk, Except.ok.injEq] at hk'
      rw [hk', hget]
    obtain ⟨row', hmem, hrow'⟩ :=
      hrows.exists_right (OrdMap.mem_range.mpr ⟨hget, hlo, hhi⟩)
    rw [hrow.eq_of_key (h.indexTyped column hindexed) hcol hrow']
    exact hmem

theorem indexLookupEqIn_eq {v : PropValue} {a : Bytes} (ha : sortableEncode v = .ok a)
    (column : String) : t.indexLookupEqIn schema column v = t.resolveIndexRowsIn schema column
      ((t.index column).range (.included a) (.stop (Bytes.upperBound a))) := by
  rw [indexLookupEqIn, ha, Except.ok_bind]
  cases Bytes.upperBound a <;> rfl

/-- **An equality lookup returns the rows with the value.** -/
theorem indexLookupEqIn_spec (h : t.Indexed schema) {column : String} {c : ColumnSchema}
    (hindexed : column ∈ schema.indexedColumns) (hcol : schema.column column = some c)
    {v : PropValue} (hkind : ColumnKind.of v = c.kind) {a : Bytes} (ha : sortableKey v = some a) :
    ∃ rows, t.indexLookupEqIn schema column v = .ok rows ∧ rows.Nodup ∧
      ∀ row, row ∈ rows ↔ t.HasRow schema row ∧ indexable row schema column = some v := by
  obtain ⟨rows, hrows, hnodup, hmem⟩ := resolveIndexRowsIn_spec h hindexed hcol (.included a)
    (.stop (Bytes.upperBound a))
  refine ⟨rows, ?_, hnodup, fun row ↦ ?_⟩
  · rw [indexLookupEqIn_eq (sortableEncode_eq_ok.mpr ha), hrows]
  rw [hmem]
  -- the keys in the range are those that start with the value's key
  have hrange : ∀ k : Bytes, ((Bound.included a).Above k ∧
      (Bound.stop (Bytes.upperBound a)).Below k) ↔ a <+: k := by
    intro k
    rw [Bytes.isPrefix_iff]
    cases hub : Bytes.upperBound a with
    | none => simp [Bytes.BelowUpper, Bound.stop, hub]
    | some b => simp [Bytes.BelowUpper, Bound.stop, hub]
  constructor
  · rintro ⟨k, ⟨hrow, w, hw, hk⟩, hlo⟩
    obtain ⟨x, y, hx, -, rfl⟩ := indexKey_eq_ok.mp hk
    have hkinds : ColumnKind.of v = .of w := by
      rw [hkind, (h.indexTyped column hindexed).kind_indexable hrow hcol hw]
    have hax := key_eq_of_isPrefix hkinds ha hx ((hrange _).mp hlo)
    subst hax
    rw [sortableKey_inj hkinds ha hx]
    exact ⟨hrow, hw⟩
  · rintro ⟨hrow, hv⟩
    obtain ⟨k, hk, -⟩ := (h.indexExact column hindexed).complete row v hrow hv
    refine ⟨k, ⟨hrow, v, hv, hk⟩, (hrange k).mpr ?_⟩
    obtain ⟨x, y, hx, -, rfl⟩ := indexKey_eq_ok.mp hk
    rw [ha, Option.some_inj] at hx
    exact hx ▸ List.prefix_append _ _

theorem ascending_of_indexLookupEqIn (h : t.Indexed schema) {column : String} {c : ColumnSchema}
    (hindexed : column ∈ schema.indexedColumns) (hcol : schema.column column = some c)
    {v : PropValue} {rows : List Row} (hrows : t.indexLookupEqIn schema column v = .ok rows)
    (hv : ∀ row ∈ rows, indexable row schema column = some v) :
    rows.Pairwise fun a b ↦ ∃ x y, sortableKey a.pk = some x ∧ sortableKey b.pk = some y ∧ x < y := by
  obtain ⟨a, ha, -⟩ := Except.bind_eq_ok.mp hrows
  rw [indexLookupEqIn_eq ha] at hrows
  obtain ⟨rows', hrows', hall⟩ := resolveIndexRowsIn_rows h hindexed hcol (.included a)
    (.stop (Bytes.upperBound a))
  obtain rfl := Except.ok.inj (hrows'.symm.trans hrows)
  refine (hall.pairwise_right ((t.index column).range_sorted _ _)
    (Q := fun r r' ↦ indexable r schema column = some v → indexable r' schema column = some v →
      ∃ x y, sortableKey r.pk = some x ∧ sortableKey r'.pk = some y ∧ x < y) ?_).imp_of_mem
    fun hr hr' himp ↦ himp (hv _ hr) (hv _ hr')
  rintro e e' row row' ⟨-, w, hw, hk⟩ ⟨-, w', hw', hk'⟩ hlt hrow hrow'
  obtain rfl := Option.some.inj (hw.symm.trans hrow)
  obtain rfl := Option.some.inj (hw'.symm.trans hrow')
  -- entries of one value differ in the key of the row
  obtain ⟨x, y, hx, hy, hxy⟩ := indexKey_eq_ok.mp hk
  obtain ⟨x', y', hx', hy', hxy'⟩ := indexKey_eq_ok.mp hk'
  obtain rfl := Option.some.inj (hx.symm.trans hx')
  refine ⟨y, y', hy, hy', ?_⟩
  rwa [hxy, hxy', Bytes.append_lt_append_iff] at hlt

/-- **A range lookup returns rows, among them those in the range.** -/
theorem indexLookupRangeIn_spec (h : t.Indexed schema) {column : String} {c : ColumnSchema}
    (hindexed : column ∈ schema.indexedColumns) (hcol : schema.column column = some c)
    {lo hi : Bound PropValue} (hlo : BoundKind c.kind lo) (hhi : BoundKind c.kind hi) :
    ∃ rows, t.indexLookupRangeIn schema column lo hi = .ok rows ∧ rows.Nodup ∧
      (∀ row ∈ rows, t.HasRow schema row) ∧
      ∀ row v, t.HasRow schema row → indexable row schema column = some v → LowerHolds lo v →
        UpperHolds hi v → row ∈ rows := by
  obtain ⟨lo', hlo'⟩ := lowerBoundBytes_isOk hlo
  obtain ⟨hi', hhi'⟩ := upperBoundBytes_isOk hhi
  obtain ⟨rows, hrows, hnodup, hmem⟩ := resolveIndexRowsIn_spec h hindexed hcol lo' hi'
  refine ⟨rows, ?_, hnodup, fun row hrow ↦ ?_, fun row v hrow hv hl hu ↦ ?_⟩
  · rw [indexLookupRangeIn, hlo', Except.ok_bind, hhi', Except.ok_bind, hrows]
  · obtain ⟨k, hrow, -⟩ := (hmem row).mp hrow
    exact hrow.1
  · obtain ⟨k, hk, -⟩ := (h.indexExact column hindexed).complete row v hrow hv
    obtain ⟨x, y, hx, -, rfl⟩ := indexKey_eq_ok.mp hk
    have hkind := (h.indexTyped column hindexed).kind_indexable hrow hcol hv
    refine (hmem row).mpr ⟨x ++ y, ⟨hrow, v, hv, hk⟩, ?_, ?_⟩
    · exact lowerBoundBytes_above (hkind ▸ hlo) hlo' hx hl y
    · exact upperBoundBytes_below (hkind ▸ hhi) hhi' hx hu y

/-- **A prefix lookup returns rows, among them those with the prefix.** -/
theorem indexLookupPrefixIn_spec (h : t.Indexed schema) {column : String} {c : ColumnSchema}
    (hindexed : column ∈ schema.indexedColumns) (hcol : schema.column column = some c)
    (hstr : c.kind = .str) (p : String) :
    ∃ rows, t.indexLookupPrefixIn schema column p = .ok rows ∧ rows.Nodup ∧
      (∀ row ∈ rows, t.HasRow schema row) ∧
      ∀ row s, t.HasRow schema row → indexable row schema column = some (.str s) →
        p.utf8 <+: s.utf8 → row ∈ rows := by
  obtain ⟨rows, hrows, hnodup, hmem⟩ := resolveIndexRowsIn_spec h hindexed hcol
    (sortableStrPrefixBounds p).1 (sortableStrPrefixBounds p).2
  refine ⟨rows, ?_, hnodup, fun row hrow ↦ ?_, fun row s hrow hs hp ↦ ?_⟩
  · rw [indexLookupPrefixIn, hcol, Except.ofOption, Except.ok_bind, Except.guardOr, if_pos hstr,
      Except.ok_bind]
    exact hrows
  · obtain ⟨k, hrow, -⟩ := (hmem row).mp hrow
    exact hrow.1
  · obtain ⟨k, hk, -⟩ := (h.indexExact column hindexed).complete row _ hrow hs
    obtain ⟨x, y, hx, -, rfl⟩ := indexKey_eq_ok.mp hk
    obtain ⟨-, rfl⟩ : 0 ∉ s.utf8 ∧ s.utf8 ++ [0] = x := by simpa [sortableKey] using hx
    exact (hmem row).mpr ⟨_, ⟨hrow, _, hs, hk⟩, sortableStrPrefixBounds_spec hp y⟩

end TableStore
