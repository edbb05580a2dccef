import Bkndb.Core.Text
import Bkndb.Relational.Ann.Graph
import Bkndb.Relational.Codec

/-!
# Stored tables

What is stored for one relational table: its catalog entry, its primary-key counter, its rows under
their sortable keys, and the index, full-text and vector tables derived from its name. The keys of
the shared `meta` table and the derived physical names all carry the table's name, so a database
is a family of these, one for each name. Records serialized by the source are kept as the
values they hold.

The reads of `relational/db/read.rs` follow.

## Reading a row through an index

An index entry is the key of the value and then the primary key, without a mark between them. The
reader decodes the value's length from the kind of the column, takes the rest for the primary key,
and reads the row; an entry whose row is gone, or holds another value by now, is passed over.

A key that cannot be encoded has no row, so `get` of it returns nothing rather than an error.
-/

/-- The physical tables and `meta` entries of one relational table. -/
structure TableStore where
  /-- `relschema:<table>`. -/
  schema : Option TableSchema := none
  /-- `relnext:<table>`. -/
  counter : Option ℕ := none
  /-- `<table>`: the non-key values by primary key. -/
  rows : OrdMap Bytes Properties := ∅
  /-- `<table>__idx_<column>`. -/
  index : String → OrdMap Bytes Unit := fun _ ↦ ∅
  /-- `relfts:<table>`: the columns with a full-text index. -/
  ftsColumns : List String := []
  /-- `relftsstat:<table>:<column>`: documents and terms indexed. -/
  ftsStats : String → Option (ℕ × ℕ) := fun _ ↦ none
  /-- `<table>__fts_<column>`. -/
  postings : String → OrdMap Bytes ℕ := fun _ ↦ ∅
  /-- `<table>__ftsdoc_<column>`. -/
  docs : String → OrdMap Bytes ℕ := fun _ ↦ ∅
  /-- `relann:<table>`: the columns with a vector index. -/
  annColumns : List String := []
  /-- `relannmeta:<table>:<column>` and the three tables of that vector index. -/
  ann : String → Option Ann.Hnsw := fun _ ↦ none

/-- A row: its primary key and its other values. -/
structure Row where
  pk : PropValue
  values : Properties

/-- A column's value, the primary-key column being the key. -/
def Row.get (row : Row) (schema : TableSchema) (column : String) : Option PropValue :=
  if column = schema.primaryKey then some row.pk else row.values.get? column

/-- A value that is there and not null. -/
def nonNull (v : Option PropValue) : Option PropValue := v.filter (!·.isNull)

/-- The value to index for a column, if any: nulls are never indexed. -/
def indexable (row : Row) (schema : TableSchema) (column : String) : Option PropValue :=
  nonNull (row.get schema column)

theorem nonNull_eq_some {o : Option PropValue} {v : PropValue} :
    nonNull o = some v ↔ o = some v ∧ v.isNull = false := by
  rw [nonNull, Option.filter_eq_some_iff]
  simp

namespace TableStore

/-- The row with a primary key. A value that cannot be a key cannot be stored. -/
def getIn (t : TableStore) (pk : PropValue) : Option Row :=
  match PropValue.sortableKey pk with
  | none => none
  | some k => (t.rows.get? k).map (⟨pk, ·⟩)

/-- A stored entry as a row. -/
def decodeBaseRow (kind : ColumnKind) (e : Bytes × Properties) : Except BknError Row := do
  return ⟨← decodeSortable kind e.1, e.2⟩

/-- Every row, in key order. -/
def scanAllIn (t : TableStore) (schema : TableSchema) : Except BknError (List Row) := do
  let pk ← schema.primaryKeyColumn
  t.rows.entries.mapM (decodeBaseRow pk.kind)

/-- The row of an index entry, if the row still agrees with it. -/
def resolveIndexRow (t : TableStore) (schema : TableSchema) (column : String)
    (kind pkKind : ColumnKind) (key : Bytes) : Except BknError (Option Row) := do
  let pk ← pkFromIndexKey kind pkKind key
  match t.getIn pk with
  | none => return none
  | some row =>
    let current := (indexable row schema column).bind fun v ↦ (indexKey v pk).toOption
    return if current = some key then some row else none

/-- The rows behind index entries. -/
def resolveIndexRowsIn (t : TableStore) (schema : TableSchema) (column : String)
    (keys : List (Bytes × Unit)) : Except BknError (List Row) := do
  let c ← .ofOption (.encoding s!"no such column '{column}'") (schema.column column)
  let pk ← schema.primaryKeyColumn
  let rows ← keys.mapM fun e ↦ t.resolveIndexRow schema column c.kind pk.kind e.1
  return rows.filterMap id

/-- The rows whose indexed column has a value. -/
def indexLookupEqIn (t : TableStore) (schema : TableSchema) (column : String) (v : PropValue) :
    Except BknError (List Row) := do
  let lo ← sortableEncode v
  let hi := match Bytes.upperBound lo with
    | some b => .excluded b
    | none => .unbounded
  t.resolveIndexRowsIn schema column ((t.index column).range (.included lo) hi)

/-- The rows whose indexed column lies in a range. -/
def indexLookupRangeIn (t : TableStore) (schema : TableSchema) (column : String)
    (lo hi : Bound PropValue) : Except BknError (List Row) := do
  let lo ← lowerBoundBytes lo
  let hi ← upperBoundBytes hi
  t.resolveIndexRowsIn schema column ((t.index column).range lo hi)

/-- The rows whose indexed string starts with a prefix. -/
def indexLookupPrefixIn (t : TableStore) (schema : TableSchema) (column p : String) :
    Except BknError (List Row) := do
  let c ← .ofOption (.encoding s!"no such column '{column}'") (schema.column column)
  .guardOr (c.kind = .str) (.encoding
    s!"prefix search is only supported on Str columns, '{column}' is {c.kind.debug}")
  let (lo, hi) := sortableStrPrefixBounds p
  t.resolveIndexRowsIn schema column ((t.index column).range lo hi)

end TableStore
