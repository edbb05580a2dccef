import Bkndb.Relational.Write

/-!
# The schema catalog

Registering, migrating and dropping tables (`relational/catalog.rs`). All three work on the one
table named by the schema, inside the caller's transaction.

## What each of them reads

* `create_table` compares the definition with the registered one, and refuses another.
* `ensure_table` migrates to the new definition: columns may come and go, kinds may not change.
* Both adopt the rows that are there when nothing is registered.

A rebuild clears the index and puts the rows back one by one. For a `UNIQUE` column it keeps the
keys it has seen and refuses a row with one of them.
-/

namespace TableStore

/-! ## Rebuilding an index -/

/-- Note a value of a `UNIQUE` column, which must not have been seen before. -/
def noteSeen (schema : TableSchema) (column : String) (unique : Bool) (seen : List Bytes)
    (v : PropValue) : Except BknError (List Bytes) :=
  if unique then do
    let k ← sortableEncode v
    .guardOr (k ∉ seen) (.constraintViolation schema.name
      [.text s!"cannot make '{column}' UNIQUE: value ", .debug v, .text " appears more than once"])
    return k :: seen
  else return seen

/-- Put one row in a column's index, given the values seen so far. -/
def rebuildStep (schema : TableSchema) (column : String) (unique : Bool)
    (st : List Bytes × OrdMap Bytes Unit) (row : Row) :
    Except BknError (List Bytes × OrdMap Bytes Unit) :=
  match indexable row schema column with
  | none => .ok st
  | some v => do
    let seen ← noteSeen schema column unique st.1 v
    let key ← indexKey v row.pk
    return (seen, st.2.insert key ())

/-- Rewrite one column's index from scratch, enforcing `UNIQUE`. -/
def rebuildIndex (schema : TableSchema) (rows : List Row) (t : TableStore) (column : String) :
    Except BknError TableStore := do
  let unique := (schema.column column).any (·.unique)
  let (_, index) ← rows.foldlM (rebuildStep schema column unique) ([], ∅)
  return { t with index := Function.update t.index column index }

/-- Clear one column's index. -/
def clearIndex (t : TableStore) (column : String) : TableStore :=
  { t with index := Function.update t.index column ∅ }

/-! ## Registration -/

/-- Register a table not yet in the catalog. Rows may already exist, written through a static
schema; their indexes are rebuilt. -/
def adoptIn (t : TableStore) (schema : TableSchema) : Except BknError TableStore := do
  let rows ← t.scanAllIn schema
  let t ← if rows.isEmpty then pure t
    else schema.indexedColumns.foldlM (rebuildIndex schema rows) t
  return { t with schema := some schema }

/-! ## Migration

Rows are put back only if their values changed. Indexes of columns that are no longer indexed are
cleared, and those of columns that are indexed only now, or unique only now, are rebuilt; others
are left. -/

/-- Whether a column keeps its kind. -/
def checkKind (old new : TableSchema) (c : ColumnSchema) : Except BknError Unit :=
  match old.column c.name with
  | none => .ok ()
  | some o => .guardOr (o.kind = c.kind) (.schemaMismatch new.name
      s!"column '{c.name}' cannot change kind from {o.kind.debug} to {c.kind.debug}")

/-- Fill in the default of one column, if it was added and the row has no value for it. -/
def fillDefault (old : TableSchema) (values : Properties) (c : ColumnSchema) : Properties :=
  match c.default with
  | some d =>
    if (old.column c.name).isNone ∧ (values.get? c.name).isNone then values.insert c.name d
    else values
  | none => values

/-- A row's values under a new schema: removed columns dropped, defaults of added ones filled in. -/
def migrateValues (old new : TableSchema) (values : Properties) : Properties :=
  new.columns.foldl (fillDefault old) (values.filter fun k _ ↦ (new.column k).isSome)

/-- Put a migrated row back, if its values changed. -/
def putMigrated (t : TableStore) (row : Row) (values : Properties) : Except BknError TableStore :=
  if PropValue.eqvEntries values.entries row.values.entries then .ok t
  else do
    let key ← sortableEncode row.pk
    return { t with rows := t.rows.insert key values }

/-- Migrate one row. -/
def migrateRow (old new : TableSchema) (st : List Row × TableStore) (row : Row) :
    Except BknError (List Row × TableStore) := do
  let values := migrateValues old new row.values
  validateRow new row.pk values
  let t ← st.2.putMigrated row values
  return (st.1 ++ [⟨row.pk, values⟩], t)

/-- Whether a migration has to rebuild a column's index. -/
def needsRebuild (old new : TableSchema) (column : String) : Bool :=
  !old.isIndexed column ||
    ((new.column column).any (·.unique) && !(old.column column).any (·.unique))

/-- Migrate the stored table from one schema to another. -/
def migrateIn (t : TableStore) (old new : TableSchema) : Except BknError TableStore := do
  let fixed := .schemaMismatch new.name
    "the primary key and auto-increment setting cannot be changed"
  .guardOr (old.primaryKey = new.primaryKey) fixed
  let oldPk ← old.primaryKeyColumn
  let newPk ← new.primaryKeyColumn
  .guardOr (oldPk.kind = newPk.kind ∧ old.autoIncrementPk = new.autoIncrementPk) fixed
  new.columns.forM (checkKind old new)
  let rows ← t.scanAllIn old
  let (rows, t) ← rows.foldlM (migrateRow old new) ([], t)
  let t := (old.indexedColumns.filter (!new.isIndexed ·)).foldl clearIndex t
  let t ← (new.indexedColumns.filter (needsRebuild old new)).foldlM (rebuildIndex new rows) t
  return { t with schema := some new }

/-! ## The operations -/

/-- Register a table; `false` if an identical definition is registered already. -/
def createTableIn (t : TableStore) (schema : TableSchema) : Except BknError (Bool × TableStore) := do
  checkTableName schema.name
  match t.schema with
  | some existing =>
    if existing.eqv schema then return (false, t)
    else throw (.schemaMismatch schema.name
      "table already exists with a different definition (use ensure_table to migrate it)")
  | none => return (true, ← t.adoptIn schema)

/-- Drop the search indexes a schema no longer supports (`search::retain_valid_in`). -/
def retainValidIn (t : TableStore) (schema : Option TableSchema) : TableStore :=
  (t.ftsRetainValid schema).annRetainValid schema

/-- Create the table, or migrate it to a new definition. -/
def ensureTableIn (t : TableStore) (schema : TableSchema) : Except BknError TableStore := do
  checkTableName schema.name
  match t.schema with
  | none => t.adoptIn schema
  | some old =>
    if old.eqv schema then return t
    else
      let t ← t.migrateIn old schema
      return t.retainValidIn (some schema)

/-- Remove a registered table: rows, indexes, counter and catalog entry. -/
def dropTableIn (t : TableStore) (name : String) : Except BknError (Bool × TableStore) := do
  checkTableName name
  match t.schema with
  | none => return (false, t)
  | some schema =>
    let t := schema.indexedColumns.foldl clearIndex { t with rows := ∅ }
    let t := { t with counter := none, schema := none }
    return (true, t.retainValidIn none)

/-- Add a backfilled index to a registered table. -/
def createIndex (t : TableStore) (table column : String) : Except BknError TableStore := do
  checkTableName table
  let schema ← .ofOption (.tableNotFound table) t.schema
  t.ensureTableIn (← (schema.toBuilder.index column).build)

/-- Remove an index, and any `UNIQUE` constraint relying on it. -/
def dropIndex (t : TableStore) (table column : String) : Except BknError TableStore := do
  checkTableName table
  let schema ← .ofOption (.tableNotFound table) t.schema
  t.ensureTableIn (← (schema.toBuilder.dropIndex column).build)

end TableStore
