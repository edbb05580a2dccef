import Bkndb.Relational.Adopt
import Bkndb.Relational.Builder
import Bkndb.Relational.FulltextMirror
import Bkndb.Relational.VectorMirror

/-!
# What a migration preserves

`ensure_table` on a registered table keeps the rows and their common columns, fills in the defaults
of the new ones, and leaves each index as a rebuild would. An index that both schemas name is not
rebuilt, which is right as long as both declare its column; a schema converted from a static one
need not, and then the index can be left behind.

## Main results

* `RelationalInv.preserves_iff`: what `ensure_table` keeps once it accepts the schema, exactly.
* `RelationalInv.dropIndex_createIndex_iff`: when an index that comes and goes restores the table.
* `migration_preserves_iff`: both together, in every state that a run reaches.

## The index that is left behind

A column may be indexed without being declared, if the schema is a static one. Its index is empty
of values that nobody could store. When a later schema declares the column, with a default, the
rows gain the default while the index is not touched, since both schemas name it.
-/

open PropValue Except

/-! ## Schemas that compare equal -/

namespace ColumnSchema

/-- A column without its default. -/
def shape (c : ColumnSchema) : ColumnSchema := { c with default := none }

theorem shape_eq_of_eqv {a b : ColumnSchema} (h : a.eqv b = true) : a.shape = b.shape := by
  simp only [eqv, Bool.and_eq_true, beq_iff_eq] at h
  obtain ⟨⟨⟨⟨hname, hkind⟩, hnullable⟩, hunique⟩, -⟩ := h
  rw [shape, shape, hname, hkind, hnullable, hunique]

end ColumnSchema

namespace TableSchema

variable {old new : TableSchema}

theorem map_shape_of_eqvColumns : ∀ {x y : List ColumnSchema}, eqvColumns x y = true →
    x.map ColumnSchema.shape = y.map ColumnSchema.shape
  | [], [], _ => rfl
  | [], _ :: _, h => by simp [eqvColumns] at h
  | _ :: _, [], h => by simp [eqvColumns] at h
  | a :: x, b :: y, h => by
    simp only [eqvColumns, Bool.and_eq_true] at h
    rw [List.map_cons, List.map_cons, ColumnSchema.shape_eq_of_eqv h.1, map_shape_of_eqvColumns h.2]

/-- Schemas that declare the same columns, defaults apart, and index the same ones. -/
structure SameShape (old new : TableSchema) : Prop where
  name : old.name = new.name
  columns : old.columns.map ColumnSchema.shape = new.columns.map ColumnSchema.shape
  primaryKey : old.primaryKey = new.primaryKey
  indexedColumns : old.indexedColumns = new.indexedColumns

theorem sameShape_of_eqv (h : old.eqv new = true) : SameShape old new := by
  simp only [eqv, Bool.and_eq_true, beq_iff_eq] at h
  obtain ⟨⟨⟨⟨hname, hcolumns⟩, hpk⟩, -⟩, hindexed⟩ := h
  exact ⟨hname, map_shape_of_eqvColumns hcolumns, hpk, hindexed⟩

theorem map_shape_column (s : TableSchema) (c : String) :
    (s.column c).map ColumnSchema.shape =
      (s.columns.map ColumnSchema.shape).find? (·.name == c) := by
  rw [column, List.find?_map]
  rfl

theorem SameShape.column (h : SameShape old new) (c : String) :
    (old.column c).map ColumnSchema.shape = (new.column c).map ColumnSchema.shape := by
  rw [map_shape_column, map_shape_column, h.columns]

theorem SameShape.map_column {β : Type} (h : SameShape old new) (c : String) {f : ColumnSchema → β}
    (hf : ∀ a, f a.shape = f a) : (old.column c).map f = (new.column c).map f := by
  have hmap : ∀ s : TableSchema, (s.column c).map f =
      ((s.column c).map ColumnSchema.shape).map f := fun s ↦ by
    rw [Option.map_map]
    exact congrArg (Option.map · (s.column c)) (funext fun a ↦ (hf a).symm)
  rw [hmap, hmap, h.column]

theorem SameShape.isSome_column (h : SameShape old new) (c : String) :
    (old.column c).isSome = (new.column c).isSome := by
  have hmap := congrArg Option.isSome (h.column c)
  rwa [Option.isSome_map, Option.isSome_map] at hmap

theorem SameShape.pkKind (h : SameShape old new) : old.pkKind = new.pkKind := by
  rw [TableSchema.pkKind, TableSchema.pkKind, ← h.primaryKey]
  exact h.map_column _ fun _ ↦ rfl

theorem SameShape.indexable_eq (h : SameShape old new) (row : Row) (c : String) :
    indexable row old c = indexable row new c := by
  rw [indexable, indexable, Row.get, Row.get, h.primaryKey]

end TableSchema

namespace TableStore

variable {t t' : TableStore} {schema old new : TableSchema} {column : String}

/-! ## An exact index is the one a rebuild gives

For rows without a common value in a `UNIQUE` column, which the invariant promises, a rebuild
succeeds; it then puts exactly the entries of the rows. -/

/-- Rows without a common value have no common key. -/
theorem pairwise_not_sameKey {rows : List Row} (htyped : t.RowsTyped schema)
    (hrange : t.RowsOfRange schema .unbounded .unbounded rows) {col : ColumnSchema}
    (hcol : schema.column column = some col) (hunique : t.UniqueHolds schema column) :
    rows.Pairwise fun a b ↦ ¬SameKey schema column a b := by
  refine hrange.nodup.imp_of_mem fun {a b} ha hb hne ↦ ?_
  rintro ⟨v, w, x, hv, hw, hx, hx'⟩
  have ha := (hrange.mem_unbounded a).mp ha
  have hb := (hrange.mem_unbounded b).mp hb
  have hkind : ColumnKind.of v = .of w := by
    rw [(htyped.typedAt _).kind_indexable ha hcol hv,
      (htyped.typedAt _).kind_indexable hb hcol hw]
  exact hne (hunique a b v ha hb hv (sortableKey_inj hkind hx hx' ▸ hw))

theorem rebuildIndex_of_indexExact {rows : List Row}
    (hrange : t.RowsOfRange schema .unbounded .unbounded rows) (hexact : t.IndexExact schema column)
    (hunique : (schema.column column).any (·.unique) = true →
      rows.Pairwise fun a b ↦ ¬SameKey schema column a b) :
    rebuildIndex schema rows t column = .ok t := by
  obtain ⟨hkeys, hget⟩ := indexExact_iff.mp hexact
  obtain ⟨t', ht'⟩ := rebuildIndex_isOk
    (fun row hrow ↦ hkeys row ((hrange.mem_unbounded row).mp hrow)) hunique t
  obtain ⟨index, hrebuilt, rfl⟩ := rebuildIndex_eq_ok ht'
  have hindex : index = t.index column := by
    refine OrdMap.ext fun k ↦ ?_
    have hiff : index.get? k = some () ↔ (t.index column).get? k = some () := by
      rw [hrebuilt.entries, hget]
      simp only [hrange.mem_unbounded]
    cases hi : index.get? k with
    | some u => exact (hiff.mp hi).symm
    | none =>
      cases ht : (t.index column).get? k with
      | none => rfl
      | some u => rw [hiff.mpr ht] at hi; cases hi
  rw [ht', hindex, Function.update_eq_self]

/-- Every index of the table is the one a rebuild from its rows gives. -/
def IndexesRebuilt (t : TableStore) (schema : TableSchema) : Prop :=
  ∃ rows, t.scanAllIn schema = .ok rows ∧
    ∀ c ∈ schema.indexedColumns, rebuildIndex schema rows t c = .ok t

theorem indexesRebuilt_of_exact (hpk : ∃ kind, schema.pkKind = some kind)
    (hkeyed : t.RowsKeyed schema) (htyped : t.RowsTyped schema)
    (hexact : ∀ c ∈ schema.indexedColumns, t.IndexExact schema c)
    (hunique : ∀ c ∈ schema.indexedColumns, (schema.column c).any (·.unique) = true →
      t.UniqueHolds schema c) : t.IndexesRebuilt schema := by
  obtain ⟨rows, hscan, hrange⟩ := scanAllIn_spec hkeyed hpk
  refine ⟨rows, hscan, fun c hc ↦ rebuildIndex_of_indexExact hrange (hexact c hc) fun hu ↦ ?_⟩
  obtain ⟨col, hcol, -⟩ := Option.any_eq_true .. |>.mp hu
  exact pairwise_not_sameKey htyped hrange hcol (hunique c hc hu)

/-- The converse: indexes that a rebuild gives hold the entries of the rows. -/
theorem IndexesRebuilt.indexExact (h : t.IndexesRebuilt schema) (hkeyed : t.RowsKeyed schema)
    {c : String} (hc : c ∈ schema.indexedColumns) : t.IndexExact schema c := by
  obtain ⟨rows, hscan, hrebuild⟩ := h
  have hpk : ∃ kind, schema.pkKind = some kind := by
    obtain ⟨kind, hkind, -⟩ := scanAllIn_eq_ok hscan
    exact ⟨kind, hkind⟩
  obtain ⟨rows', hscan', hrange⟩ := scanAllIn_spec hkeyed hpk
  rw [hscan, ok.injEq] at hscan'
  subst hscan'
  obtain ⟨index, hrebuilt, heq⟩ := rebuildIndex_eq_ok (hrebuild c hc)
  have hindex : t.index c = index := by
    conv_lhs => rw [heq]
    exact Function.update_self ..
  exact (hindex ▸ hrebuilt).indexExact hrange.mem_unbounded

theorem rebuildIndex_eq_self_iff {rows : List Row} : rebuildIndex schema rows t column = .ok t ↔
    ∃ seen, rows.foldlM (rebuildStep schema column ((schema.column column).any (·.unique)))
      ([], ∅) = .ok (seen, t.index column) := by
  simp only [rebuildIndex, bind_eq_ok]
  constructor
  · rintro ⟨⟨seen, index⟩, hloop, h⟩
    have hindex : t.index column = index := by
      conv_lhs => rw [← ok.inj h]
      exact Function.update_self ..
    exact ⟨seen, hindex ▸ hloop⟩
  · rintro ⟨seen, hloop⟩
    refine ⟨_, hloop, ?_⟩
    rw [Function.update_eq_self]
    rfl

theorem IndexesRebuilt.congr (h : t.IndexesRebuilt schema) (hrows : t'.rows = t.rows)
    (hindex : t'.index = t.index) : t'.IndexesRebuilt schema := by
  obtain ⟨rows, hscan, hrebuild⟩ := h
  refine ⟨rows, ?_, fun c hc ↦ ?_⟩
  · rw [scanAllIn, hrows]
    exact hscan
  · have hself := hrebuild c hc
    rw [rebuildIndex_eq_self_iff] at hself ⊢
    rwa [hindex]

/-! ## Migrated values -/

/-- What a migration makes of a row's values. -/
structure ValuesMigrated (old new : TableSchema) (values values' : Properties) : Prop where
  kept : ∀ c, (old.column c).isSome = true → (new.column c).isSome = true →
    values'.get? c = values.get? c
  removed : ∀ c, new.column c = none → values'.get? c = none
  /-- An added column holds its default, or nothing. -/
  added : ∀ c col, old.column c = none → new.column c = some col → values'.get? c = col.default

/-- Only declared columns hold values. -/
def OnlyDeclared (schema : TableSchema) (values : Properties) : Prop :=
  ∀ c v, values.get? c = some v → (schema.column c).isSome = true

theorem onlyDeclared_of_valid {pk : PropValue} {values : Properties}
    (h : validateRow schema pk values = .ok ()) : OnlyDeclared schema values := by
  intro c v hv
  obtain ⟨-, -, hvalues, -⟩ := validateRow_eq_ok.mp h
  obtain ⟨col, hcol, -⟩ := checkValue_eq_ok.mp (hvalues (c, v) (OrdMap.mem_entries.mpr hv))
  rw [hcol]
  rfl

theorem OnlyDeclared.get?_eq_none {values : Properties} (h : OnlyDeclared schema values) {c : String}
    (hc : schema.column c = none) : values.get? c = none := by
  cases hv : values.get? c with
  | none => rfl
  | some v =>
    have hsome := h c v hv
    rw [hc] at hsome
    cases hsome

/-- The first default among the columns of that name. -/
def firstDefault (columns : List ColumnSchema) (c : String) : Option PropValue :=
  columns.findSome? fun col ↦ if col.name = c then col.default else none

theorem firstDefault_cons (col : ColumnSchema) (columns : List ColumnSchema) (c : String) :
    firstDefault (col :: columns) c =
      (if col.name = c then col.default else none).or (firstDefault columns c) := by
  rw [firstDefault, List.findSome?_cons]
  cases (if col.name = c then col.default else none) <;> rfl

theorem get?_migrateValues_of_added (old new : TableSchema) {values : Properties} {c : String}
    (hold : old.column c = none) (hvalues : values.get? c = none) :
    (migrateValues old new values).get? c = firstDefault new.columns c := by
  suffices H : ∀ (columns : List ColumnSchema) (acc : Properties),
      (columns.foldl (fillDefault old) acc).get? c = (acc.get? c).or (firstDefault columns c) by
    refine (H new.columns _).trans ?_
    rw [OrdMap.get?_filter, hvalues]
    rfl
  intro columns
  induction columns with
  | nil =>
    intro acc
    exact (Option.or_none ..).symm
  | cons col columns ih =>
    intro acc
    rw [List.foldl_cons, ih, firstDefault_cons, fillDefault]
    by_cases hname : col.name = c
    · subst hname
      cases hd : col.default with
      | none => simp
      | some d => cases hacc : acc.get? col.name <;> simp [hold, hacc]
    · -- another column
      rw [if_neg hname, Option.none_or]
      congr 1
      cases hd : col.default with
      | none => rfl
      | some d =>
        dsimp only
        split
        · exact OrdMap.get?_insert_of_ne _ _ (Ne.symm hname)
        · rfl

theorem firstDefault_of_constructible (hc : schema.Constructible) (c : String) :
    firstDefault schema.columns c = (schema.column c).bind (·.default) := by
  rcases hc with ⟨s, rfl⟩ | ⟨b, hb⟩
  · -- a static schema has none
    have hnone : ∀ col ∈ (TableSchema.ofRelSchema s).columns, col.default = none := by
      intro col hcol
      obtain ⟨c, -, rfl⟩ := List.mem_map.mp hcol
      rfl
    have hfirst : firstDefault (TableSchema.ofRelSchema s).columns c = none := by
      refine List.findSome?_eq_none_iff.mpr fun col hcol ↦ ?_
      rw [hnone col hcol, ite_self]
    rw [hfirst]
    cases hcol : (TableSchema.ofRelSchema s).column c with
    | none => rfl
    | some col => exact (hnone col (List.mem_of_find?_eq_some hcol)).symm
  · obtain ⟨seen, hseen⟩ := (TableSchemaBuilder.normal_of_build hb).checked
    have hnodup := TableSchemaBuilder.nodup_of_checkColumns hseen
    rw [TableSchema.column]
    generalize schema.columns = columns at hnodup
    induction columns with
    | nil => rfl
    | cons col columns ih =>
      rw [List.map_cons, List.nodup_cons] at hnodup
      rw [firstDefault_cons]
      by_cases hname : col.name = c
      · have hrest : firstDefault columns c = none := by
          refine List.findSome?_eq_none_iff.mpr fun col' hcol' ↦ if_neg fun heq ↦ hnodup.1 ?_
          exact hname.trans heq.symm ▸ List.mem_map_of_mem hcol'
        rw [if_pos hname, hrest, Option.or_none, List.find?_cons_of_pos (by simpa using hname),
          Option.bind_some]
      · rw [if_neg hname, Option.none_or, List.find?_cons_of_neg (by simpa using hname)]
        exact ih hnodup.2

theorem valuesMigrated (hc : new.Constructible) {values : Properties}
    (h : OnlyDeclared old values) : ValuesMigrated old new values (migrateValues old new values) := by
  refine ⟨fun c hold hnew ↦ get?_migrateValues_of_declared values hnew hold, fun c hnone ↦ ?_,
    fun c col hold hnew ↦ ?_⟩
  · cases hv : (migrateValues old new values).get? c with
    | none => rfl
    | some v =>
      rcases (get?_migrateValues old new values c).2 v hv with ⟨-, hsome⟩ | ⟨-, hsome, -⟩
      all_goals
        rw [hnone] at hsome
        cases hsome
  · rw [get?_migrateValues_of_added old new hold (h.get?_eq_none hold),
      firstDefault_of_constructible hc, hnew, Option.bind_some]

/-! ## Migrations that change no row

A schema that agrees with the old one about columns and defaults leaves the rows as they are, so
such a migration is about the indexes alone. -/

/-- The values of a valid row stay, where no column is added. -/
theorem migrateValues_eq_self {values : Properties} (h : OnlyDeclared new values)
    (hold : ∀ c ∈ new.columns, (old.column c.name).isSome = true) :
    migrateValues old new values = values := by
  refine OrdMap.ext fun k ↦ ?_
  obtain ⟨hkeep, hfrom⟩ := get?_migrateValues old new values k
  cases hv : values.get? k with
  | some v => exact hkeep v hv (h k v hv)
  | none =>
    cases hm : (migrateValues old new values).get? k with
    | none => rfl
    | some v =>
      rcases hfrom v hm with ⟨hv', -⟩ | ⟨-, hsome, hnone⟩
      · rw [hv] at hv'
        cases hv'
      · -- a column of the new schema that the old one lacks
        obtain ⟨col, hcol⟩ := Option.isSome_iff_exists.mp hsome
        have hname : col.name = k := by simpa using List.find?_some hcol
        have hdecl := hold col (List.mem_of_find?_eq_some hcol)
        rw [hname, hnone] at hdecl
        cases hdecl

/-- The new schema has nothing to say about the rows that the old one did not. -/
structure KeepsRows (t : TableStore) (old new : TableSchema) : Prop where
  primaryKey : old.primaryKey = new.primaryKey
  pkKind : old.pkKind = new.pkKind
  pkDeclared : ∃ kind, old.pkKind = some kind
  autoIncrementPk : old.autoIncrementPk = new.autoIncrementPk
  kinds : new.columns.forM (checkKind old new) = .ok ()
  declared : ∀ c ∈ new.columns, (old.column c.name).isSome = true
  valid : ∀ row, t.HasRow old row → validateRow new row.pk row.values = .ok ()

theorem KeepsRows.foldlM_migrateRow (h : t.KeepsRows old new) {rows : List Row}
    (hrows : ∀ row ∈ rows, t.HasRow old row) (out : List Row) :
    rows.foldlM (migrateRow old new) (out, t) = .ok (out ++ rows, t) := by
  induction rows generalizing out with
  | nil => rw [List.append_nil]; rfl
  | cons row rows ih =>
    have hrow := hrows row List.mem_cons_self
    have hvalues := migrateValues_eq_self (onlyDeclared_of_valid (h.valid row hrow)) h.declared
    have hput : t.putMigrated row row.values = .ok t := by
      rw [putMigrated]
      split
      · rfl
      · -- what is put back is what is there
        obtain ⟨-, k, hk, hget⟩ := hrow
        have hinsert : t.rows.insert k row.values = t.rows := by
          refine OrdMap.ext fun k' ↦ ?_
          rw [OrdMap.get?_insert]
          split
          · rename_i heq
            rw [heq, hget]
          · rfl
        rw [sortableEncode_eq_ok.mpr hk, ok_bind, hinsert]
        rfl
    have hstep : migrateRow old new (out, t) row = .ok (out ++ [row], t) := by
      simp only [migrateRow, hvalues, h.valid row hrow, hput, ok_bind]
      rfl
    rw [List.foldlM_cons, hstep, ok_bind, ih fun r hr ↦ hrows r (List.mem_cons_of_mem _ hr),
      List.append_assoc, List.singleton_append]

theorem KeepsRows.migrateIn (h : t.KeepsRows old new) (hkeyed : t.RowsKeyed old) :
    ∃ rows, t.RowsOfRange old .unbounded .unbounded rows ∧ t.migrateIn old new = (do
      let t ← (new.indexedColumns.filter (needsRebuild old new)).foldlM (rebuildIndex new rows)
        ((old.indexedColumns.filter (!new.isIndexed ·)).foldl clearIndex t)
      return { t with schema := some new }) := by
  obtain ⟨rows, hscan, hrange⟩ := scanAllIn_spec hkeyed h.pkDeclared
  refine ⟨rows, hrange, ?_⟩
  obtain ⟨kind, hkind⟩ := h.pkDeclared
  obtain ⟨oldPk, holdPk, hold⟩ := TableSchema.primaryKeyColumn_of_pkKind hkind
  obtain ⟨newPk, hnewPk, hnew⟩ := TableSchema.primaryKeyColumn_of_pkKind (h.pkKind ▸ hkind)
  have hloop := h.foldlM_migrateRow (fun row hrow ↦ (hrange.mem_unbounded row).mp hrow) []
  rw [List.nil_append] at hloop
  have hfixed : oldPk.kind = newPk.kind ∧ old.autoIncrementPk = new.autoIncrementPk :=
    ⟨hold.trans hnew.symm, h.autoIncrementPk⟩
  simp only [TableStore.migrateIn, guardOr_eq_ok (u := ()) |>.mpr h.primaryKey, holdPk, hnewPk,
    guardOr_eq_ok (u := ()) |>.mpr hfixed, h.kinds, hscan, hloop, ok_bind]

theorem mem_ftsColumns_retainValidIn {c : String} :
    c ∈ (t.retainValidIn (some schema)).ftsColumns ↔
      c ∈ t.ftsColumns ∧ isTextColumn (some schema) c = true := by
  have hann : (t.retainValidIn (some schema)).ftsColumns =
      (t.ftsRetainValid (some schema)).ftsColumns := by
    rw [retainValidIn, annRetainValid_vectorsOnly]
  rw [hann, ftsRetainValid]
  dsimp only
  split
  · rename_i hgone
    refine (and_iff_left_of_imp fun hc ↦ ?_).symm
    simpa using List.filter_eq_nil_iff.mp hgone c hc
  · exact List.mem_filter

theorem annColumns_retainValidIn (t : TableStore) (schema : TableSchema) (c : String) :
    (c ∈ (t.retainValidIn (some schema)).annColumns ↔
      c ∈ t.annColumns ∧ isVectorColumn schema c = true) ∧
    (isVectorColumn schema c = true → (t.retainValidIn (some schema)).ann c = t.ann c) := by
  have hfts := t.ftsRetainValid_fulltextOnly (some schema)
  have hcolumns : (t.ftsRetainValid (some schema)).annColumns = t.annColumns := by rw [hfts]
  have hann : (t.ftsRetainValid (some schema)).ann = t.ann := by rw [hfts]
  rw [retainValidIn, annRetainValid, hcolumns]
  split
  · rename_i hgone
    refine ⟨?_, fun _ ↦ by rw [hann]⟩
    rw [hcolumns]
    refine (and_iff_left_of_imp fun hc ↦ ?_).symm
    simpa using List.filter_eq_nil_iff.mp hgone c hc
  · refine ⟨List.mem_filter, fun hvector ↦ ?_⟩
    dsimp only
    rw [if_neg, hann]
    simp [hvector]

theorem retainValidIn_of_supported (hfts : ∀ c ∈ t.ftsColumns, isTextColumn (some schema) c = true)
    (hann : ∀ c ∈ t.annColumns, isVectorColumn schema c = true) :
    t.retainValidIn (some schema) = t := by
  have hfts' : t.ftsRetainValid (some schema) = t := by
    rw [ftsRetainValid]
    refine if_pos (List.filter_eq_nil_iff.mpr fun c hc ↦ ?_)
    simp [hfts c hc]
  rw [retainValidIn, hfts', annRetainValid]
  refine if_pos (List.filter_eq_nil_iff.mpr fun c hc ↦ ?_)
  simp [hann c hc]

theorem needsRebuild_self {c : String} (hc : c ∈ schema.indexedColumns) :
    needsRebuild schema schema c = false := by
  rw [needsRebuild, TableSchema.isIndexed, List.contains_iff_mem.mpr hc, Bool.and_not_self]
  rfl

theorem ensureTableIn_self (hname : checkTableName schema.name = .ok ())
    (hschema : t.schema = some schema)
    (hkeep : schema.eqv schema = true ∨ t.KeepsRows schema schema) (hkeyed : t.RowsKeyed schema)
    (hfts : ∀ c ∈ t.ftsColumns, isTextColumn (some schema) c = true)
    (hann : ∀ c ∈ t.annColumns, isVectorColumn schema c = true) :
    t.ensureTableIn schema = .ok t := by
  rw [ensureTableIn, hname, ok_bind, hschema]
  dsimp only
  split
  · rfl
  · rename_i hne
    obtain ⟨rows, -, hmigrate⟩ := (hkeep.resolve_left hne).migrateIn hkeyed
    have hclear : schema.indexedColumns.filter (!schema.isIndexed ·) = [] :=
      List.filter_eq_nil_iff.mpr fun c hc ↦ by simp [TableSchema.isIndexed, hc]
    have hrebuild : schema.indexedColumns.filter (needsRebuild schema schema) = [] :=
      List.filter_eq_nil_iff.mpr fun c hc ↦ by simp [needsRebuild_self hc]
    have hsame : ({ t with schema := some schema } : TableStore) = t := by rw [← hschema]
    rw [hmigrate, hclear, hrebuild]
    change ok (({ t with schema := some schema } : TableStore).retainValidIn (some schema)) = _
    rw [hsame, retainValidIn_of_supported hfts hann]

theorem eqv_ofRelSchema (static : RelSchema) :
    (TableSchema.ofRelSchema static).eqv (.ofRelSchema static) = true := by
  have hcolumns : ∀ l : List (String × ColumnKind), TableSchema.eqvColumns
      (l.map fun c ↦ ({ name := c.1, kind := c.2 } : ColumnSchema))
      (l.map fun c ↦ ({ name := c.1, kind := c.2 } : ColumnSchema)) = true := by
    intro l
    induction l with
    | nil => rfl
    | cons c l ih =>
      rw [List.map_cons, TableSchema.eqvColumns, ih]
      simp [ColumnSchema.eqv, eqvOption]
  simp [TableSchema.eqv, TableSchema.ofRelSchema, hcolumns]

theorem checkKind_self {b : TableSchemaBuilder} (hb : b.build = .ok schema) :
    schema.columns.forM (checkKind schema schema) = .ok () := by
  obtain ⟨seen, hseen⟩ := (TableSchemaBuilder.normal_of_build hb).checked
  have hnodup := TableSchemaBuilder.nodup_of_checkColumns hseen
  refine forM_eq_ok.mpr fun c hc ↦ ?_
  rw [checkKind, TableSchema.column, TableSchemaBuilder.find?_of_nodup hnodup hc]
  exact guardOr_eq_ok.mpr rfl

theorem column_isSome_of_mem {c : ColumnSchema} (hc : c ∈ schema.columns) :
    (schema.column c.name).isSome = true := by
  rw [TableSchema.column, List.find?_isSome]
  exact ⟨c, hc, by simp⟩

theorem keepsRows_self (hc : schema.Constructible) (hpk : ∃ kind, schema.pkKind = some kind)
    (hvalid : ∀ row, t.HasRow schema row → validateRow schema row.pk row.values = .ok ()) :
    schema.eqv schema = true ∨ t.KeepsRows schema schema := by
  rcases hc with ⟨static, rfl⟩ | ⟨b, hb⟩
  · exact .inl (eqv_ofRelSchema static)
  · exact .inr ⟨rfl, rfl, hpk, rfl, checkKind_self hb, fun c hc ↦ column_isSome_of_mem hc, hvalid⟩

/-! ## What a migration promises

The promises are about rows, values, indexes and the catalog entry. Search indexes are compared
with what a rebuild would give, and vector indexes with themselves. -/

variable [Unicode]

/-- The full-text index of a column is that of the texts in the rows, which is what a rebuild
gives. -/
structure TextRebuilt (t : TableStore) (schema : TableSchema) (column : String) : Prop where
  mirrors : t.Mirrors column (t.textsOf column)
  rebuild : ∀ rows s, t.scanAllIn schema = .ok rows →
    rows.foldlM (indexRow column) (t.dropIndexData column) = .ok s →
      s.postings column = t.postings column ∧ s.docs column = t.docs column ∧
        s.loadStats column = t.loadStats column

/-- Two indexes of the same texts are the same. -/
theorem Mirrors.unique {texts : OrdMap Bytes String} (h : t.Mirrors column texts)
    (h' : t'.Mirrors column texts) : t'.postings column = t.postings column ∧
      t'.docs column = t.docs column ∧ t'.loadStats column = t.loadStats column := by
  refine ⟨OrdMap.ext fun k ↦ Option.ext fun n ↦ ?_, OrdMap.ext fun k ↦ ?_, ?_⟩
  · rw [h.postings, h'.postings]
  · rw [h.docs, h'.docs]
  · rw [h.stats, h'.stats]

theorem textRebuilt_of_mirrors (h : t.Mirrors column (t.textsOf column)) :
    t.TextRebuilt schema column := by
  refine ⟨h, fun rows s hscan hloop ↦ h.unique ?_⟩
  have hempty : (t.dropIndexData column).Mirrors column ∅ :=
    mirrors_empty (Function.update_self ..) (Function.update_self ..) (Function.update_self ..)
  exact (mirrors_of_backfill hempty hscan hloop).1

/-- The relational invariant of a registered table. -/
structure RelationalInv (t : TableStore) (schema : TableSchema) : Prop where
  registered : t.schema = some schema
  constructible : schema.Constructible
  pkDeclared : ∃ kind, schema.pkKind = some kind
  rowsKeyed : t.RowsKeyed schema
  rowsValid : ∀ row, t.HasRow schema row →
    validateRow schema row.pk row.values = .ok () ∧ row.values.get? schema.primaryKey = none
  unique : ∀ c ∈ schema.columns, c.unique = true → t.UniqueHolds schema c.name
  indexExact : ∀ c ∈ schema.indexedColumns, t.IndexExact schema c
  indexEmpty : ∀ c, c ∉ schema.indexedColumns → t.index c = ∅
  fulltext : t.FulltextInv
  vectors : ∀ c ∈ t.annColumns, isVectorColumn schema c = true

omit [Unicode] in
/-- Operations register schemas of the program. -/
theorem constructible_ensureTableIn (hi : ∀ s, t.schema = some s → s.Constructible)
    (hc : schema.Constructible) (h : t.ensureTableIn schema = .ok t') :
    ∀ s, t'.schema = some s → s.Constructible := by
  rcases ensureTableIn_eq_ok h with ⟨-, h⟩ | ⟨-, -, -, rfl⟩ | ⟨old, s, -, hmig, rfl⟩
  · rw [adoptIn_schema h]
    exact fun s hs ↦ Option.some.inj hs ▸ hc
  · exact hi
  · obtain ⟨scanned, hm⟩ := migrateIn_migrated hmig
    rw [(s.retainValidIn_same (some schema)).2.2, hm.schema]
    exact fun s hs ↦ Option.some.inj hs ▸ hc

theorem constructible_applyOp {D : Type} [LinearOrder D] {g : Ann.Geometry D}
    (hi : ∀ s, t.schema = some s → s.Constructible) {op : DbOp} (hc : op.Constructible)
    (h : t.applyOp g op = .ok t') : ∀ s, t'.schema = some s → s.Constructible := by
  cases op with
  | rows ref op =>
    simp only [applyOp, bind_eq_ok] at h
    obtain ⟨-, -, schema, -, h⟩ := h
    rw [schema_of_rowSteps (applyRowOp_steps (fun _ ↦ trivial) (fun _ _ _ _ ↦ trivial)
      op.gives_true h)]
    exact hi
  | createTable schema =>
    obtain ⟨⟨b, s⟩, hs, rfl⟩ := map_eq_ok.mp h
    rcases createTableIn_eq_ok hs with ⟨-, hadopt⟩ | ⟨-, rfl⟩
    · rw [adoptIn_schema hadopt]
      exact fun s hs ↦ Option.some.inj hs ▸ hc
    · exact hi
  | ensureTable schema => exact constructible_ensureTableIn hi hc h
  | dropTable name =>
    obtain ⟨⟨b, s⟩, hs, rfl⟩ := map_eq_ok.mp h
    rcases dropTableIn_eq_ok hs with ⟨-, rfl⟩ | ⟨schema, -, rfl⟩
    · exact hi
    · rw [(retainValidIn_same _ _).2.2]
      exact fun s hs ↦ by cases hs
  | createIndex table column =>
    obtain ⟨old, schema, -, hbuild, h⟩ := createIndex_eq_ok h
    exact constructible_ensureTableIn hi (.inr ⟨_, hbuild⟩) h
  | dropIndex table column =>
    obtain ⟨old, schema, -, hbuild, h⟩ := dropIndex_eq_ok h
    exact constructible_ensureTableIn hi (.inr ⟨_, hbuild⟩) h
  | createFulltextIndex table column =>
    obtain ⟨⟨b, s⟩, hs, rfl⟩ := map_eq_ok.mp h
    rw [createFulltextIndexIn_fulltextOnly hs]
    exact hi
  | dropFulltextIndex table column =>
    obtain rfl := ok.inj h
    rw [t.dropFulltextIndexIn_fulltextOnly column]
    exact hi
  | createVectorIndex table column options =>
    obtain ⟨⟨b, s⟩, hs, rfl⟩ := map_eq_ok.mp h
    rw [createVectorIndexIn_vectorsOnly hs]
    exact hi
  | dropVectorIndex table column =>
    obtain rfl := ok.inj h
    rw [t.dropVectorIndexIn_vectorsOnly column]
    exact hi

/-- **The relational invariant holds along runs**, of every table that was registered over nothing
with a schema that declares the columns it indexes. -/
theorem relationalInv_of_reachable {D : Type} [LinearOrder D] {g : Ann.Geometry D} {r : RelRun}
    (h : RelRun.Reachable g (fun op ↦ op.Constructible ∧ op.Declares ∧ op.Gives FitsIndex) r)
    {n : String} (hschema : (r.store n).schema = some schema) {t₀ : TableStore}
    (hadopted : r.adopted n = some t₀) (hblank : t₀.Blank) :
    (r.store n).RelationalInv schema := by
  obtain ⟨hreg, hconstr, hfts, hann, -⟩ := h.induction (fun t a ↦ t.Registered a ∧
      (∀ s, t.schema = some s → s.Constructible) ∧ t.FulltextInv ∧ t.VectorInv ∧
        t.HoldsOf FitsIndex)
    ⟨fun schema t₀ hs ↦ (by cases hs), fun s hs ↦ (by cases hs), fulltextInv_fresh,
      vectorInv_fresh, holdsOf_fresh⟩
    (fun t a op t' hop ⟨hreg, hconstr, hfts, hann, hholds⟩ hstep ↦
      ⟨hreg.applyOp hop.1 hop.2.1 hstep, constructible_applyOp hconstr hop.1 hstep,
        hfts.applyOp hstep, hann.applyOp hholds hop.2.2 hstep,
        hholds.applyOp fitsIndex_int hop.2.2 hstep⟩) n
  have hinv := hreg schema t₀ hschema hadopted hblank
  refine ⟨hschema, hconstr schema hschema, hinv.wf.pkDeclared, hinv.rowsKeyed, hinv.rowsValid,
    hinv.unique, hinv.indexExact, hinv.indexEmpty, hfts, fun c hc ↦ ?_⟩
  have hvector := hann.declared c hc
  rw [hschema] at hvector
  exact hvector

/-- What `ensure_table` promises: the rows and the values that both schemas have, the catalog entry,
every index as a rebuild from the new rows would give it, vector indexes as they were, and that
doing it again changes nothing. -/
structure Preserves (t : TableStore) (old new : TableSchema) (t' : TableStore) : Prop where
  pks : ∀ pk, (∃ values, t'.HasRow new ⟨pk, values⟩) ↔ ∃ values, t.HasRow old ⟨pk, values⟩
  rowsKeyed : t'.RowsKeyed new
  values : ∀ pk values values', t.HasRow old ⟨pk, values⟩ → t'.HasRow new ⟨pk, values'⟩ →
    ValuesMigrated old new values values'
  /-- The catalog holds the definition, or one that compares equal to it. -/
  catalog : ∃ s, t'.schema = some s ∧ (s = new ∨ s.eqv new = true)
  indexes : t'.IndexesRebuilt new
  fulltext : ∀ c ∈ t.ftsColumns, isTextColumn (some new) c = true →
    c ∈ t'.ftsColumns ∧ t'.TextRebuilt new c
  vectors : ∀ c ∈ t.annColumns, isVectorColumn new c = true →
    c ∈ t'.annColumns ∧ t'.ann c = t.ann c
  again : t'.ensureTableIn new = .ok t'

omit [Unicode] in
theorem HasRow.values_unique {pk : PropValue} {values values' : Properties}
    (h : t.HasRow schema ⟨pk, values⟩) (h' : t.HasRow schema ⟨pk, values'⟩) : values = values' := by
  obtain ⟨-, k, hk, hget⟩ := h
  exact Option.some.inj (hget.symm.trans (h'.get?_rows hk))

/-- A definition that compares equal is not replaced, and nothing is lost by that. -/
theorem RelationalInv.preserves_of_eqv (hi : t.RelationalInv old) (heqv : old.eqv new = true)
    (hensure : t.ensureTableIn new = .ok t) : t.Preserves old new t := by
  have hshape := TableSchema.sameShape_of_eqv heqv
  have hhas : ∀ row, t.HasRow new row ↔ t.HasRow old row := fun row ↦
    hasRow_congr hshape.pkKind.symm
  have hdecl : ∀ c, new.column c = none → old.column c = none := fun c hc ↦ by
    have hsome := hshape.isSome_column c
    rwa [hc, Option.isSome_none, Option.isSome_eq_false_iff, Option.isNone_iff_eq_none] at hsome
  have hkeyed : t.RowsKeyed new := fun k values hget ↦ by
    obtain ⟨pk, hk, hrow⟩ := hi.rowsKeyed k values hget
    exact ⟨pk, hk, (hhas _).mpr hrow⟩
  refine ⟨fun pk ↦ exists_congr fun values ↦ hhas _, hkeyed, fun pk values values' h h' ↦ ?_,
    ⟨old, hi.registered, .inr heqv⟩, ?_, fun c hc _ ↦
      ⟨hc, textRebuilt_of_mirrors (hi.fulltext.mirrors c hc)⟩, fun c hc _ ↦ ⟨hc, rfl⟩, hensure⟩
  · obtain rfl := h.values_unique ((hhas _).mp h')
    have honly := onlyDeclared_of_valid (hi.rowsValid _ h).1
    refine ⟨fun _ _ _ ↦ rfl, fun c hc ↦ honly.get?_eq_none (hdecl c hc), fun c col hold hnew ↦ ?_⟩
    have hsome := hshape.isSome_column c
    rw [hold, hnew] at hsome
    cases hsome
  · have htyped := rowsTyped_of_valid fun row hrow ↦ (hi.rowsValid row hrow).1
    have hidx := hshape.indexable_eq
    refine indexesRebuilt_of_exact (hshape.pkKind ▸ hi.pkDeclared) hkeyed ?_ (fun c hc ↦ ?_)
      (fun c hc hu ↦ ?_)
    · intro row hrow column c v hcol hget
      have hmap := hshape.map_column column (f := fun c ↦ c.kind) fun _ ↦ rfl
      rw [hcol, Option.map_some] at hmap
      obtain ⟨o, ho, hkind⟩ := Option.map_eq_some_iff.mp hmap
      have hget' : row.get old column = some v := by
        rw [Row.get, hshape.primaryKey]
        exact hget
      exact hkind ▸ htyped row ((hhas row).mp hrow) column o v ho hget'
    · obtain ⟨hkeys, hget⟩ := indexExact_iff.mp (hi.indexExact c (hshape.indexedColumns ▸ hc))
      have hentry : ∀ row, entryOf new c row = entryOf old c row := fun row ↦ by
        rw [entryOf, entryOf, hidx]
      refine indexExact_iff.mpr ⟨fun row hrow v hv ↦ ?_, fun k ↦ ?_⟩
      · rw [← hidx] at hv
        exact hkeys row ((hhas row).mp hrow) v hv
      · simp only [hget, hhas, hentry]
    · have hmap := hshape.map_column c (f := fun c ↦ c.unique) fun _ ↦ rfl
      obtain ⟨col, hcol, hu⟩ := Option.any_eq_true .. |>.mp hu
      rw [hcol, Option.map_some] at hmap
      obtain ⟨o, ho, hou⟩ := Option.map_eq_some_iff.mp hmap
      have hname : o.name = c := by simpa using List.find?_some ho
      intro row row' v hrow hrow' hv hv'
      rw [← hidx] at hv hv'
      exact hi.unique o (List.mem_of_find?_eq_some ho) (hou.trans hu) row row' v
        ((hhas row).mp hrow) ((hhas row').mp hrow') (hname ▸ hv) (hname ▸ hv')

/-! ## When it keeps the promise

The condition is about the two schemas and the rows before. It mentions neither what the migration
does nor what the index holds afterwards. -/

/-- An index that both schemas name, whose column only one of them declares: it is left as it is,
while the rows gain the column's default or lose its values. -/
def KeepsStale (t : TableStore) (old new : TableSchema) : Prop :=
  ∃ c, c ∈ old.indexedColumns ∧ c ∈ new.indexedColumns ∧
    ((old.column c = none ∧ ∃ col d, new.column c = some col ∧ col.unique = false ∧
      col.default = some d ∧ d.isNull = false ∧ ∃ row, t.HasRow old row) ∨
    (new.column c = none ∧ ∃ row v, t.HasRow old row ∧ row.values.get? c = some v ∧
      v.isNull = false))

section Migration

variable {s : TableStore} {scanned : List Row}

omit [Unicode] in
theorem indexable_of_ne {c : String} (h : c ≠ schema.primaryKey) (row : Row) :
    indexable row schema c = nonNull (row.values.get? c) := by
  rw [indexable, Row.get, if_neg h]

omit [Unicode] in
theorem ne_primaryKey_of_column_eq_none (hpk : ∃ kind, schema.pkKind = some kind) {c : String}
    (h : schema.column c = none) : c ≠ schema.primaryKey := by
  rintro rfl
  obtain ⟨kind, hkind⟩ := hpk
  rw [TableSchema.pkKind, h] at hkind
  cases hkind

/-- An index that is left alone and not left behind has the values it had. -/
theorem Migrated.indexable_of_not_stale (h : Migrated old new scanned t s)
    (hi : t.RelationalInv old) (hc : new.Constructible) (hstale : ¬t.KeepsStale old new)
    {c : String} (hnew : c ∈ new.indexedColumns) (hneed : needsRebuild old new c = false) {row : Row}
    (hrow : t.HasRow old row) : indexable (migrated old new row) new c = indexable row old c := by
  obtain ⟨hold, hunique⟩ := of_needsRebuild_eq_false hneed
  have honly := onlyDeclared_of_valid (hi.rowsValid row hrow).1
  have hvalues := valuesMigrated hc honly
  have hpkNew : ∃ kind, new.pkKind = some kind := h.pkKind ▸ hi.pkDeclared
  cases hco : old.column c with
  | some o =>
    cases hcn : new.column c with
    | some col => exact h.indexable_eq (by rw [hco]; rfl) (by rw [hcn]; rfl) row
    | none =>
      -- the values are gone, and there were none
      have hne := ne_primaryKey_of_column_eq_none hpkNew hcn
      rw [indexable_of_ne hne, indexable_of_ne (h.primaryKey ▸ hne), migrated,
        hvalues.removed c hcn]
      cases hnull : nonNull (row.values.get? c) with
      | none => rfl
      | some v =>
        obtain ⟨hv, hnull⟩ := nonNull_eq_some.mp hnull
        exact absurd ⟨c, hold, hnew, .inr ⟨hcn, row, v, hrow, hv, hnull⟩⟩ hstale
  | none =>
    have hne := ne_primaryKey_of_column_eq_none hi.pkDeclared hco
    rw [indexable_of_ne hne, indexable_of_ne (h.primaryKey ▸ hne), migrated,
      honly.get?_eq_none hco]
    cases hcn : new.column c with
    | none => rw [hvalues.removed c hcn]
    | some col =>
      -- the default came, and it is null or there is none
      rw [hvalues.added c col hco hcn]
      cases hnull : nonNull col.default with
      | none => rfl
      | some d =>
        obtain ⟨hd, hnull⟩ := nonNull_eq_some.mp hnull
        have hu : col.unique = false := by
          rw [← Bool.not_eq_true]
          intro hu
          have hany := hunique (by rw [hcn]; simpa using hu)
          rw [hco] at hany
          cases hany
        exact absurd ⟨c, hold, hnew, .inl ⟨hco, col, d, hcn, hu, hd, hnull, row, hrow⟩⟩ hstale

/-- An index that is left behind is not exact. -/
theorem Migrated.not_stale_of_indexExact (h : Migrated old new scanned t s)
    (hi : t.RelationalInv old) (hc : new.Constructible)
    (hexact : ∀ c ∈ new.indexedColumns, s.IndexExact new c) : ¬t.KeepsStale old new := by
  rintro ⟨c, hold, hnew, hcase⟩
  have hpkNew : ∃ kind, new.pkKind = some kind := h.pkKind ▸ hi.pkDeclared
  have hkept : needsRebuild old new c = false → s.index c = t.index c := h.kept c hnew
  have hisIndexed : old.isIndexed c = true := List.contains_iff_mem.mpr hold
  rcases hcase with ⟨hco, col, d, hcn, hu, hd, hnull, row, hrow⟩ | ⟨hcn, row, v, hrow, hv, hnull⟩
  · -- the default has an entry now, and did not before
    have hne := ne_primaryKey_of_column_eq_none hi.pkDeclared hco
    have hvalues := valuesMigrated hc (onlyDeclared_of_valid (hi.rowsValid row hrow).1)
    have hidx : indexable (migrated old new row) new c = some d := by
      rw [indexable_of_ne (h.primaryKey ▸ hne), migrated, hvalues.added c col hco hcn, hd]
      exact nonNull_eq_some.mpr ⟨rfl, hnull⟩
    obtain ⟨k, -, hget⟩ := (hexact c hnew).complete _ d (h.hasRow_iff.mpr ⟨row, hrow, rfl⟩) hidx
    rw [hkept (by rw [needsRebuild, hisIndexed, hcn]; simp [hu])] at hget
    obtain ⟨row₁, w, hrow₁, hw, -⟩ := (hi.indexExact c hold).sound k hget
    have honly := onlyDeclared_of_valid (hi.rowsValid row₁ hrow₁).1
    rw [indexable_of_ne hne, honly.get?_eq_none hco] at hw
    cases hw
  · -- the value had an entry, and is gone
    have hne := ne_primaryKey_of_column_eq_none hpkNew hcn
    have hidx : indexable row old c = some v := by
      rw [indexable_of_ne (h.primaryKey ▸ hne)]
      exact nonNull_eq_some.mpr ⟨hv, hnull⟩
    obtain ⟨k, -, hget⟩ := (hi.indexExact c hold).complete row v hrow hidx
    rw [← hkept (by rw [needsRebuild, hisIndexed, hcn]; rfl)] at hget
    obtain ⟨row', w, hrow', hw, -⟩ := (hexact c hnew).sound k hget
    obtain ⟨row₁, hrow₁, rfl⟩ := h.hasRow_iff.mp hrow'
    have hvalues := valuesMigrated hc (onlyDeclared_of_valid (hi.rowsValid row₁ hrow₁).1)
    rw [indexable_of_ne hne, migrated, hvalues.removed c hcn] at hw
    cases hw

theorem Migrated.indexesRebuilt (h : Migrated old new scanned t s) (hi : t.RelationalInv old)
    (hc : new.Constructible) (hstale : ¬t.KeepsStale old new) : s.IndexesRebuilt new := by
  obtain ⟨rows, hscan, hrange⟩ := scanAllIn_spec hi.rowsKeyed hi.pkDeclared
  obtain rfl : rows = scanned := by rw [h.scan, ok.injEq] at hscan; exact hscan.symm
  have hvalid : ∀ row, s.HasRow new row → validateRow new row.pk row.values = .ok () := by
    intro row hrow
    obtain ⟨row₀, hrow₀, rfl⟩ := h.hasRow_iff.mp hrow
    exact h.valid row₀ ((hrange.mem_unbounded row₀).mpr hrow₀)
  refine indexesRebuilt_of_exact (h.pkKind ▸ hi.pkDeclared) (h.rowsKeyed hi.rowsKeyed)
    (rowsTyped_of_valid hvalid) (fun c hcol ↦ ?_) (fun c hcol hu ↦ ?_)
  · by_cases hneed : needsRebuild old new c = true
    · exact (h.rebuilt c hcol hneed).indexExact (h.mem_rows hrange)
    · rw [Bool.not_eq_true] at hneed
      exact h.indexExact_of_kept (hi.indexExact c (of_needsRebuild_eq_false hneed).1)
        (h.kept c hcol hneed) fun row hrow ↦ h.indexable_of_not_stale hi hc hstale hcol hneed hrow
  · by_cases hneed : needsRebuild old new c = true
    · exact h.uniqueHolds_of_rebuilt hrange (h.rebuilt c hcol hneed) hu
    · rw [Bool.not_eq_true] at hneed
      obtain ⟨o, ho, hou⟩ := Option.any_eq_true .. |>.mp ((of_needsRebuild_eq_false hneed).2 hu)
      have hname : o.name = c := by simpa using List.find?_some ho
      exact h.uniqueHolds_of_kept (hname ▸ hi.unique o (List.mem_of_find?_eq_some ho) hou)
        fun row hrow ↦ h.indexable_of_not_stale hi hc hstale hcol hneed hrow

/-- A migration keeps every promise but that about the indexes, and that one as well if none is
left behind. -/
theorem Migrated.preserves_iff (h : Migrated old new scanned t s) (hi : t.RelationalInv old)
    (hc : new.Constructible) (hname : checkTableName new.name = .ok ())
    (hensure : t.ensureTableIn new = .ok (s.retainValidIn (some new))) :
    t.Preserves old new (s.retainValidIn (some new)) ↔ ¬t.KeepsStale old new := by
  obtain ⟨hrows, hindex, hschema⟩ := s.retainValidIn_same (some new)
  have hfts := hi.fulltext.ensureTableIn hensure
  have hschema : (s.retainValidIn (some new)).schema = some new := hschema.trans h.schema
  have hhas : ∀ row, (s.retainValidIn (some new)).HasRow new row ↔ s.HasRow new row := fun row ↦ by
    rw [HasRow, hrows, HasRow]
  have hkeyed : (s.retainValidIn (some new)).RowsKeyed new := fun k values hget ↦ by
    obtain ⟨pk, hk, hrow⟩ := h.rowsKeyed hi.rowsKeyed k values (hrows ▸ hget)
    exact ⟨pk, hk, (hhas _).mpr hrow⟩
  constructor
  · refine fun hp ↦ h.not_stale_of_indexExact hi hc fun c hcol ↦ ?_
    exact (hp.indexes.congr hrows.symm hindex.symm).indexExact (h.rowsKeyed hi.rowsKeyed) hcol
  · intro hstale
    refine ⟨fun pk ↦ ?_, hkeyed, fun pk values values' hrow hrow' ↦ ?_, ⟨new, hschema, .inl rfl⟩,
      (h.indexesRebuilt hi hc hstale).congr hrows hindex, fun c hcol htext ↦ ?_,
      fun c hcol hvector ↦ ?_, ?_⟩
    · simp only [hhas, h.hasRow_iff]
      constructor
      · rintro ⟨values, row, hrow, heq⟩
        exact ⟨row.values, (Row.mk.inj heq).1 ▸ hrow⟩
      · rintro ⟨values, hrow⟩
        exact ⟨_, _, hrow, rfl⟩
    · obtain ⟨row, hrow₀, heq⟩ := h.hasRow_iff.mp ((hhas _).mp hrow')
      obtain ⟨rfl, rfl⟩ := Row.mk.inj heq
      obtain rfl := HasRow.values_unique hrow hrow₀
      exact valuesMigrated hc (onlyDeclared_of_valid (hi.rowsValid row hrow₀).1)
    · have hmem : c ∈ (s.retainValidIn (some new)).ftsColumns :=
        mem_ftsColumns_retainValidIn.mpr ⟨h.search.ftsColumns ▸ hcol, htext⟩
      exact ⟨hmem, textRebuilt_of_mirrors (hfts.mirrors c hmem)⟩
    · obtain ⟨hmem, hann⟩ := s.annColumns_retainValidIn new c
      exact ⟨hmem.mpr ⟨h.search.annColumns ▸ hcol, hvector⟩, by rw [hann hvector, h.search.ann]⟩
    · obtain ⟨rows, hscan, hrange⟩ := scanAllIn_spec hi.rowsKeyed hi.pkDeclared
      obtain rfl : rows = scanned := by rw [h.scan, ok.injEq] at hscan; exact hscan.symm
      refine ensureTableIn_self hname hschema (keepsRows_self hc (h.pkKind ▸ hi.pkDeclared)
        fun row hrow ↦ ?_) hkeyed (fun c hcol ↦ hschema ▸ hfts.declared c hcol)
        fun c hcol ↦ ((s.annColumns_retainValidIn new c).1.mp hcol).2
      obtain ⟨row₀, hrow₀, rfl⟩ := h.hasRow_iff.mp ((hhas row).mp hrow)
      exact h.valid row₀ ((hrange.mem_unbounded row₀).mpr hrow₀)

end Migration

theorem RelationalInv.not_keepsStale (hi : t.RelationalInv old) (h : old.eqv new = true) :
    ¬t.KeepsStale old new := by
  have hsome := (TableSchema.sameShape_of_eqv h).isSome_column
  rintro ⟨c, -, -, ⟨hco, col, d, hcn, -⟩ | ⟨hcn, row, v, hrow, hv, -⟩⟩
  · have hc := hsome c
    rw [hco, hcn] at hc
    cases hc
  · have hdecl := onlyDeclared_of_valid (hi.rowsValid row hrow).1 c v hv
    rw [hsome c, hcn] at hdecl
    cases hdecl

/-- **What `ensure_table` keeps**, once it accepts the schema. -/
theorem RelationalInv.preserves_iff (hi : t.RelationalInv old) (hc : new.Constructible)
    (h : t.ensureTableIn new = .ok t') : t.Preserves old new t' ↔ ¬t.KeepsStale old new := by
  have hname : checkTableName new.name = .ok () := by
    rw [ensureTableIn, bind_eq_ok] at h
    exact h.choose_spec.1
  rcases ensureTableIn_eq_ok h with ⟨hnone, -⟩ | ⟨old', hold, heqv, rfl⟩ | ⟨old', s, hold, hmig, rfl⟩
  · rw [hi.registered] at hnone
    cases hnone
  · rw [hi.registered, Option.some_inj] at hold
    subst hold
    exact iff_of_true (hi.preserves_of_eqv heqv h) (hi.not_keepsStale heqv)
  · rw [hi.registered, Option.some_inj] at hold
    subst hold
    obtain ⟨scanned, hm⟩ := migrateIn_migrated hmig
    exact hm.preserves_iff hi hc hname h

/-! ## An index that comes and goes -/

/-- A schema with one more indexed column. -/
structure AddsIndex (old new : TableSchema) (column : String) : Prop where
  name : new.name = old.name
  columns : new.columns = old.columns
  primaryKey : new.primaryKey = old.primaryKey
  autoIncrementPk : new.autoIncrementPk = old.autoIncrementPk
  indexedColumns : new.indexedColumns = old.indexedColumns ++ [column]
  new_index : column ∉ old.indexedColumns

namespace AddsIndex

omit [Unicode]

theorem column_eq (h : AddsIndex old new column) (c : String) : new.column c = old.column c := by
  rw [TableSchema.column, TableSchema.column, h.columns]

theorem pkKind (h : AddsIndex old new column) : new.pkKind = old.pkKind := by
  rw [TableSchema.pkKind, TableSchema.pkKind, h.column_eq, h.primaryKey]

theorem not_eqv (h : AddsIndex old new column) : ¬old.eqv new = true ∧ ¬new.eqv old = true := by
  have hne : old.indexedColumns ≠ new.indexedColumns := fun heq ↦ by
    have hlength := congrArg List.length (heq.trans h.indexedColumns)
    simp at hlength
  exact ⟨fun heqv ↦ hne (TableSchema.sameShape_of_eqv heqv).indexedColumns,
    fun heqv ↦ hne (TableSchema.sameShape_of_eqv heqv).indexedColumns.symm⟩

theorem isIndexed_iff (h : AddsIndex old new column) {c : String} :
    new.isIndexed c = true ↔ old.isIndexed c = true ∨ c = column := by
  rw [TableSchema.isIndexed, TableSchema.isIndexed, h.indexedColumns]
  simp

theorem filter_old (h : AddsIndex old new column) {p : String → Bool}
    (hp : ∀ c, p c = !old.isIndexed c) : new.indexedColumns.filter p = [column] := by
  have hold : old.indexedColumns.filter p = [] := List.filter_eq_nil_iff.mpr fun c hc ↦ by
    simp [hp, TableSchema.isIndexed, hc]
  have hnew : p column = true := by simp [hp, TableSchema.isIndexed, h.new_index]
  rw [h.indexedColumns, List.filter_append, hold, List.nil_append, List.filter_cons, if_pos hnew,
    List.filter_nil]

theorem filter_new (h : AddsIndex old new column) {p : String → Bool}
    (hp : ∀ c, p c = !new.isIndexed c) : old.indexedColumns.filter p = [] := by
  refine List.filter_eq_nil_iff.mpr fun c hc ↦ ?_
  rw [hp, h.isIndexed_iff.mpr (.inl (List.contains_iff_mem.mpr hc))]
  simp

theorem needsRebuild (h : AddsIndex old new column) (c : String) :
    TableStore.needsRebuild old new c = !old.isIndexed c ∧
      TableStore.needsRebuild new old c = !new.isIndexed c := by
  rw [TableStore.needsRebuild, TableStore.needsRebuild, h.column_eq, Bool.and_not_self,
    Bool.or_false, Bool.or_false]
  exact ⟨rfl, rfl⟩

/-- Such schemas agree about the rows. -/
theorem keepsRows (h : AddsIndex old new column) (hpk : ∃ kind, old.pkKind = some kind)
    (hkinds : old.columns.forM (checkKind old old) = .ok ())
    (hvalid : ∀ row, t.HasRow old row → validateRow old row.pk row.values = .ok ()) :
    t.KeepsRows old new ∧ t.KeepsRows new old := by
  obtain ⟨name, columns, primaryKey, autoIncrementPk, indexedColumns⟩ := new
  obtain ⟨rfl, rfl, rfl, rfl, -, -⟩ := h
  exact ⟨⟨rfl, rfl, hpk, rfl, hkinds, fun _ hc ↦ column_isSome_of_mem hc, hvalid⟩,
    ⟨rfl, rfl, hpk, rfl, hkinds, fun _ hc ↦ column_isSome_of_mem hc, hvalid⟩⟩

theorem migrateIn_add {s : TableStore} (h : AddsIndex old new column) (hkeep : t.KeepsRows old new)
    (hkeyed : t.RowsKeyed old) (hmig : t.migrateIn old new = .ok s) :
    ∃ index, s = { t with
      index := Function.update t.index column index, schema := some new } := by
  obtain ⟨rows, -, hmigrate⟩ := hkeep.migrateIn hkeyed
  rw [hmigrate, h.filter_old fun c ↦ (h.needsRebuild c).1, h.filter_new fun _ ↦ rfl] at hmig
  simp only [List.foldl_nil, List.foldlM_cons, List.foldlM_nil, bind_pure, bind_eq_ok] at hmig
  obtain ⟨t₂, hindex, hs⟩ := hmig
  obtain ⟨index, -, rfl⟩ := rebuildIndex_eq_ok hindex
  exact ⟨index, (ok.inj hs).symm⟩

theorem migrateIn_drop (h : AddsIndex old new column) (hkeep : t.KeepsRows new old)
    (hkeyed : t.RowsKeyed new) : t.migrateIn new old = .ok { t with
      index := Function.update t.index column ∅, schema := some old } := by
  obtain ⟨rows, -, hmigrate⟩ := hkeep.migrateIn hkeyed
  rw [hmigrate, h.filter_new fun c ↦ (h.needsRebuild c).2, h.filter_old fun _ ↦ rfl]
  rfl

end AddsIndex

/-- **Dropping an index that was just created** restores the table, if its schema is one from the
builder. -/
theorem RelationalInv.dropIndex_createIndex (hi : t.RelationalInv old)
    {b : TableSchemaBuilder} (hb : b.build = .ok old) {table : String} {t₁ : TableStore}
    (hnot : column ∉ old.indexedColumns) (h : t.createIndex table column = .ok t₁) :
    t₁.dropIndex table column = .ok t := by
  have hnormal := TableSchemaBuilder.normal_of_build hb
  have htable : checkTableName table = .ok () := by
    rw [createIndex, bind_eq_ok] at h
    exact h.choose_spec.1
  obtain ⟨old', new, hold, hbuild, hensure⟩ := createIndex_eq_ok h
  rw [hi.registered, Option.some_inj] at hold
  subst hold
  have hback := hnormal.build_dropIndex hnot hbuild
  have hvalid : ∀ row, t.HasRow old row → validateRow old row.pk row.values = .ok () :=
    fun row hrow ↦ (hi.rowsValid row hrow).1
  have hfts : ∀ c ∈ t.ftsColumns, isTextColumn (some old) c = true := fun c hc ↦
    hi.registered ▸ hi.fulltext.declared c hc
  have hself : t.ensureTableIn old = .ok t :=
    ensureTableIn_self hnormal.notReserved hi.registered
      (keepsRows_self hi.constructible hi.pkDeclared hvalid) hi.rowsKeyed hfts hi.vectors
  -- dropping ends in the old schema
  suffices H : t₁.schema = some new ∧ t₁.ensureTableIn old = .ok t by
    rw [dropIndex, htable, ok_bind, H.1, Except.ofOption, ok_bind, hback, ok_bind, H.2]
  rcases hnormal.build_index hnot hbuild with ⟨-, rfl⟩ | ⟨hpk, hnew⟩
  · -- the key column needs no index
    rw [hself] at hensure
    obtain rfl := ok.inj hensure
    exact ⟨hi.registered, hself⟩
  have hadds : AddsIndex old new column := by
    subst hnew
    exact ⟨rfl, rfl, rfl, rfl, rfl, hnot⟩
  obtain ⟨hkeep, -⟩ := hadds.keepsRows hi.pkDeclared (checkKind_self hb) hvalid
  -- creating the index put entries in an empty table
  obtain ⟨index, rfl⟩ : ∃ index, t₁ = { t with
      index := Function.update t.index column index, schema := some new } := by
    rcases ensureTableIn_eq_ok hensure with ⟨hnone, -⟩ | ⟨o, ho, heqv, -⟩ | ⟨o, s, ho, hmig, rfl⟩
    · rw [hi.registered] at hnone
      cases hnone
    · rw [hi.registered, Option.some_inj] at ho
      exact absurd (ho ▸ heqv) hadds.not_eqv.1
    · rw [hi.registered, Option.some_inj] at ho
      subst ho
      obtain ⟨index, rfl⟩ := hadds.migrateIn_add hkeep hi.rowsKeyed hmig
      refine ⟨index, retainValidIn_of_supported (fun c hc ↦ ?_) fun c hc ↦ ?_⟩
      · rw [isTextColumn, Option.bind_some, hadds.column_eq]
        exact hfts c hc
      · rw [isVectorColumn, hadds.column_eq, hadds.primaryKey]
        exact hi.vectors c hc
  -- and dropping it clears the table
  refine ⟨rfl, ?_⟩
  have hhas : ∀ row, ({ t with
      index := Function.update t.index column index
      schema := some new } : TableStore).HasRow new row ↔ t.HasRow old row := fun row ↦
    hasRow_congr (t := t) hadds.pkKind
  obtain ⟨-, hkeep'⟩ := hadds.keepsRows (t := { t with
    index := Function.update t.index column index, schema := some new }) hi.pkDeclared
    (checkKind_self hb) hvalid
  have hkeyed : ({ t with
      index := Function.update t.index column index
      schema := some new } : TableStore).RowsKeyed new := fun k values hget ↦ by
    obtain ⟨pk, hk, hrow⟩ := hi.rowsKeyed k values hget
    exact ⟨pk, hk, (hhas _).mpr hrow⟩
  rw [ensureTableIn, hnormal.notReserved, ok_bind]
  dsimp only
  rw [if_neg hadds.not_eqv.2, hadds.migrateIn_drop hkeep' hkeyed, ok_bind]
  dsimp only
  have hindex : Function.update (Function.update t.index column index) column ∅ = t.index := by
    rw [Function.update_idem, ← hi.indexEmpty column hnot, Function.update_eq_self]
  have hsame : ({ t with index := t.index, schema := some old } : TableStore) = t := by
    rw [← hi.registered]
  rw [hindex, hsame, retainValidIn_of_supported hfts hi.vectors]
  rfl

omit [Unicode] in
theorem nullable_ofRelSchema {static : RelSchema} {c : ColumnSchema}
    (h : (TableSchema.ofRelSchema static).primaryKeyColumn = .ok c) : c.nullable = true := by
  rw [TableSchema.primaryKeyColumn, ofOption_eq_ok] at h
  obtain ⟨col, -, rfl⟩ := List.mem_map.mp (List.mem_of_find?_eq_some h)
  rfl

omit [Unicode] in
theorem nullable_of_build {b : TableSchemaBuilder} (hb : b.build = .ok schema) {c : ColumnSchema}
    (h : schema.primaryKeyColumn = .ok c) : c.nullable = false := by
  obtain ⟨col, hcol, -, -, hnull⟩ := (TableSchemaBuilder.normal_of_build hb).pk
  rw [TableSchema.primaryKeyColumn, ofOption_eq_ok, TableSchema.column, hcol, Option.some_inj] at h
  exact h ▸ hnull

omit [Unicode] in
theorem dropIndex_built {table : String} {t₁ : TableStore} (hbuilt : ∃ b : TableSchemaBuilder,
    ∃ s, t₁.schema = some s ∧ b.build = .ok s) (h : t₁.dropIndex table column = .ok t) :
    ∃ b : TableSchemaBuilder, ∃ s, t.schema = some s ∧ b.build = .ok s := by
  obtain ⟨old, new, hold, hbuild, hensure⟩ := dropIndex_eq_ok h
  rcases ensureTableIn_eq_ok hensure with ⟨hnone, -⟩ | ⟨o, ho, -, rfl⟩ | ⟨o, s, ho, hmig, rfl⟩
  · rw [hold] at hnone
    cases hnone
  · exact hbuilt
  · obtain ⟨scanned, hm⟩ := migrateIn_migrated hmig
    exact ⟨_, new, (s.retainValidIn_same (some new)).2.2.trans hm.schema, hbuild⟩

/-- Dropping the index restores the table only if the builder marked the key column before. -/
theorem RelationalInv.dropIndex_createIndex_iff (hi : t.RelationalInv old) {table : String}
    {t₁ : TableStore} (hnot : column ∉ old.indexedColumns)
    (h : t.createIndex table column = .ok t₁) :
    t₁.dropIndex table column = .ok t ↔ ∃ c, old.primaryKeyColumn = .ok c ∧ c.nullable = false := by
  obtain ⟨kind, hkind⟩ := hi.pkDeclared
  obtain ⟨pk, hpk, -⟩ := TableSchema.primaryKeyColumn_of_pkKind hkind
  constructor
  · intro hdrop
    refine ⟨pk, hpk, ?_⟩
    obtain ⟨o, new, ho, hbuild, hensure⟩ := createIndex_eq_ok h
    rw [hi.registered, Option.some_inj] at ho
    subst ho
    rcases ensureTableIn_eq_ok hensure with ⟨hnone, -⟩ | ⟨o, ho, heqv, -⟩ | ⟨o, s, ho, hmig, rfl⟩
    · rw [hi.registered] at hnone
      cases hnone
    · -- the schema compares equal to one from the builder
      rw [hi.registered, Option.some_inj] at ho
      have hshape := TableSchema.sameShape_of_eqv (ho ▸ heqv)
      have hmap := hshape.map_column old.primaryKey (f := fun c ↦ c.nullable) fun _ ↦ rfl
      rw [TableSchema.primaryKeyColumn, ofOption_eq_ok] at hpk
      rw [hpk, Option.map_some] at hmap
      obtain ⟨c, hc, hnull⟩ := Option.map_eq_some_iff.mp hmap.symm
      have hc' : new.primaryKeyColumn = .ok c := by
        rw [TableSchema.primaryKeyColumn, ofOption_eq_ok, ← hshape.primaryKey, hc]
      exact hnull.symm.trans (nullable_of_build hbuild hc')
    · -- the table ends up with a schema from the builder
      obtain ⟨scanned, hm⟩ := migrateIn_migrated hmig
      obtain ⟨b, s', hs', hb⟩ := dropIndex_built
        ⟨_, new, (s.retainValidIn_same (some new)).2.2.trans hm.schema, hbuild⟩ hdrop
      rw [hi.registered, Option.some_inj] at hs'
      exact nullable_of_build (hs' ▸ hb) hpk
  · rintro ⟨c, hc, hnull⟩
    rcases hi.constructible with ⟨static, rfl⟩ | ⟨b, hb⟩
    · rw [nullable_ofRelSchema hc] at hnull
      cases hnull
    · exact hi.dropIndex_createIndex hb hnot h

/-- **Migration preserves meaning** exactly when no index is left behind: one that both schemas name,
whose column only one of them declares, where the rows gained a default or lost values. An index
that comes and goes leaves no trace exactly if the key column was marked `NOT NULL`, as the builder
marks it. -/
theorem migration_preserves_iff (hi : t.RelationalInv old) :
    (∀ new t', new.Constructible → t.ensureTableIn new = .ok t' →
      (t.Preserves old new t' ↔ ¬t.KeepsStale old new)) ∧
    ∀ table column t₁, column ∉ old.indexedColumns → t.createIndex table column = .ok t₁ →
      (t₁.dropIndex table column = .ok t ↔
        ∃ c, old.primaryKeyColumn = .ok c ∧ c.nullable = false) :=
  ⟨fun _ _ hc h ↦ hi.preserves_iff hc h, fun _ _ _ hnot h ↦ hi.dropIndex_createIndex_iff hnot h⟩

/-! ## Concrete migrations -/

section RowSteps

variable {D : Type} [LinearOrder D] {g : Ann.Geometry D} {V : PropValue → Prop}

theorem relationalInv_of_undeclared (hc : schema.Constructible)
    (hpk : ∃ kind, schema.pkKind = some kind)
    (hindexed : ∀ c ∈ schema.indexedColumns, schema.column c = none)
    (hunique : ∀ c ∈ schema.columns, c.unique = false)
    (h : RowSteps g V schema { schema := some schema } t) : t.RelationalInv schema := by
  obtain ⟨hkeyed, hentries⟩ := keyed_of_rowSteps (s := { schema := some schema })
    (fun k values hget ↦ by simp at hget) (fun c k hget ↦ by simp at hget) h
  have hvalid : (∀ row, t.HasRow schema row → validateRow schema row.pk row.values = .ok () ∧
      row.values.get? schema.primaryKey = none) ∧ t.annColumns = [] := by
    clear hkeyed hentries
    induction h with
    | refl => exact ⟨fun row ⟨_, k, _, hget⟩ ↦ by simp at hget, rfl⟩
    | tail _ hstep ih =>
      cases hstep with
      | row hchange _ => exact ⟨hchange.rowsValid ih.1, hchange.frame.2.2.2.trans ih.2⟩
      | counter n => exact ih
  -- no row has anything to index
  have hnone : ∀ c ∈ schema.indexedColumns, ∀ row, t.HasRow schema row →
      indexable row schema c = none := fun c hcol row hrow ↦ by
    have hdecl := hindexed c hcol
    rw [indexable_of_ne (ne_primaryKey_of_column_eq_none hpk hdecl),
      (onlyDeclared_of_valid (hvalid.1 row hrow).1).get?_eq_none hdecl]
    rfl
  refine ⟨schema_of_rowSteps h, hc, hpk, hkeyed, hvalid.1, fun c hcol hu ↦ ?_, fun c hcol ↦ ?_,
    fun c hcol ↦ ?_, fulltextInv_of_rowSteps ?_ h, fun c hcol ↦ ?_⟩
  · rw [hunique c hcol] at hu
    cases hu
  · refine ⟨fun row v hrow hv ↦ ?_, fun k hk ↦ ?_⟩
    · rw [hnone c hcol row hrow] at hv
      cases hv
    · obtain ⟨-, row, hrow, hentry⟩ := hentries c k hk
      obtain ⟨v, hv, -⟩ := entryOf_eq_some.mp hentry
      rw [hnone c hcol row hrow] at hv
      cases hv
  · refine OrdMap.ext fun k ↦ ?_
    cases hget : (t.index c).get? k with
    | none => rfl
    | some u => exact absurd (hentries c k hget).1 hcol
  · exact ⟨List.nodup_nil, by simp, fun _ _ ↦ ⟨rfl, rfl, rfl⟩, by simp⟩
  · rw [hvalid.2] at hcol
    cases hcol

end RowSteps

/-- Points as the builder leaves their schema. -/
private def builtPoints : TableSchema where
  name := "points"
  columns := [{ name := "id", kind := .int, nullable := false }, { name := "x", kind := .int }]
  primaryKey := "id"
  autoIncrementPk := false
  indexedColumns := []

/-- A static schema that indexes a column it does not declare. -/
private def undeclaredIndex : TableSchema := pointsSchema ["y"]

/-- The schema that goes on to declare it. -/
private def declaredIndex : TableSchema where
  name := "points"
  columns := [{ name := "id", kind := .int, nullable := false }, { name := "x", kind := .int },
    { name := "y", kind := .int, default := some (.int 7) }]
  primaryKey := "id"
  autoIncrementPk := false
  indexedColumns := ["y"]

/-- Point 1 in a table registered with the schema. -/
private def onePoint (schema : TableSchema) : Except BknError TableStore :=
  @applyRowOp Unicode.ascii ℕ _ Ann.flat { schema := some schema } schema
    (.insertBulk [RelRun.point] .error)

omit [Unicode] in
private theorem relationalInv_onePoint {schema : TableSchema} {t : TableStore}
    (hc : schema.Constructible) (hpk : ∃ kind, schema.pkKind = some kind)
    (hindexed : ∀ c ∈ schema.indexedColumns, schema.column c = none)
    (hunique : ∀ c ∈ schema.columns, c.unique = false) (h : onePoint schema = .ok t) :
    @RelationalInv Unicode.ascii t schema :=
  @relationalInv_of_undeclared t schema Unicode.ascii ℕ _ Ann.flat (fun _ ↦ True) hc hpk hindexed
    hunique (@applyRowOp_steps Unicode.ascii ℕ _ Ann.flat _ _ _ _ _ (fun _ ↦ trivial)
      (fun _ _ _ _ ↦ trivial) (RowOp.gives_true _) h)

omit [Unicode] in
private theorem exists_onePoint (schema : TableSchema) (p : TableStore → Bool)
    (h : (onePoint schema).toOption.any p = true) : ∃ t, onePoint schema = .ok t ∧ p t = true := by
  cases ht : onePoint schema with
  | error e =>
    rw [ht] at h
    cases h
  | ok t =>
    rw [ht] at h
    exact ⟨t, rfl, h⟩

omit [Unicode] in
private theorem exists_ok {α : Type} {x : Except BknError α} (h : x.toOption.isSome = true) :
    ∃ a, x = .ok a := by
  cases x with
  | error e => cases h
  | ok a => exact ⟨a, rfl⟩

omit [Unicode] in
/-- Point 1 gets a `y`, and an index on `x` comes and goes. -/
theorem migration_preserves_builtPoints : ∃ t t' t₁ : TableStore, t.rows.size = 1 ∧
    t.ensureTableIn declaredIndex = .ok t' ∧
      @Preserves Unicode.ascii t builtPoints declaredIndex t' ∧
        t.createIndex "points" "x" = .ok t₁ ∧ t₁.dropIndex "points" "x" = .ok t := by
  obtain ⟨t, ht, hcheck⟩ := exists_onePoint builtPoints (fun t ↦
    decide (t.rows.size = 1) && (t.ensureTableIn declaredIndex).toOption.isSome &&
      (t.createIndex "points" "x").toOption.isSome) (by decide +kernel)
  simp only [Bool.and_eq_true, decide_eq_true_eq] at hcheck
  obtain ⟨⟨hsize, hensure⟩, hcreate⟩ := hcheck
  obtain ⟨t', ht'⟩ := exists_ok hensure
  obtain ⟨t₁, ht₁⟩ := exists_ok hcreate
  have hi := relationalInv_onePoint (.inr ⟨builtPoints.toBuilder, rfl⟩) ⟨.int, rfl⟩
    (fun c hc ↦ absurd hc List.not_mem_nil) (by decide) ht
  obtain ⟨hmigrate, hdrop⟩ := @migration_preserves_iff t builtPoints Unicode.ascii hi
  refine ⟨t, t', t₁, hsize, ht', (hmigrate _ _ (.inr ⟨declaredIndex.toBuilder, rfl⟩) ht').mpr ?_, ht₁,
    (hdrop "points" "x" t₁ List.not_mem_nil ht₁).mpr ⟨_, rfl, rfl⟩⟩
  rintro ⟨c, hc, -⟩
  exact absurd hc List.not_mem_nil

omit [Unicode] in
/-- Under a static schema, an index on `x` that came and went leaves another definition behind; and
an index on `y`, declared only when the column came, lacks the entries of its default. -/
theorem not_preserves_points :
    (∃ t t₁ : TableStore, @RelationalInv Unicode.ascii t (pointsSchema []) ∧
      t.createIndex "points" "x" = .ok t₁ ∧ t₁.dropIndex "points" "x" ≠ .ok t) ∧
    ∃ t t' : TableStore, @RelationalInv Unicode.ascii t undeclaredIndex ∧
      t.ensureTableIn declaredIndex = .ok t' ∧
        ¬@Preserves Unicode.ascii t undeclaredIndex declaredIndex t' := by
  constructor
  · obtain ⟨t, ht, hcheck⟩ := exists_onePoint (pointsSchema []) (fun t ↦
      (t.createIndex "points" "x").toOption.isSome) (by decide +kernel)
    obtain ⟨t₁, ht₁⟩ := exists_ok hcheck
    have hi := relationalInv_onePoint (.inl ⟨_, rfl⟩) ⟨.int, rfl⟩
      (fun c hc ↦ absurd hc List.not_mem_nil) (by decide) ht
    refine ⟨t, t₁, hi, ht₁, fun hdrop ↦ ?_⟩
    obtain ⟨c, hc, hnull⟩ :=
      (@RelationalInv.dropIndex_createIndex_iff t _ _ Unicode.ascii hi _ _ List.not_mem_nil
        ht₁).mp hdrop
    rw [nullable_ofRelSchema hc] at hnull
    cases hnull
  · obtain ⟨t, ht, hcheck⟩ := exists_onePoint undeclaredIndex (fun t ↦
      (t.rows.get? (Bytes.be 8 (flipSign 1).toNat)).isSome &&
        (t.ensureTableIn declaredIndex).toOption.isSome) (by decide +kernel)
    rw [Bool.and_eq_true] at hcheck
    obtain ⟨values, hvalues⟩ := Option.isSome_iff_exists.mp hcheck.1
    obtain ⟨t', ht'⟩ := exists_ok hcheck.2
    have hi := relationalInv_onePoint (.inl ⟨_, rfl⟩) ⟨.int, rfl⟩ (fun c hc ↦ by
      obtain rfl := List.mem_singleton.mp hc
      rfl) (by decide) ht
    refine ⟨t, t', hi, ht', fun hp ↦ ?_⟩
    refine (@RelationalInv.preserves_iff t t' _ _ Unicode.ascii hi
      (.inr ⟨declaredIndex.toBuilder, rfl⟩) ht').mp hp ⟨"y", List.mem_singleton_self _,
        List.mem_singleton_self _, .inl ⟨rfl, _, _, rfl, rfl, rfl, rfl, ⟨.int 1, values⟩, ?_⟩⟩
    exact ⟨rfl, _, rfl, hvalues⟩

end TableStore
