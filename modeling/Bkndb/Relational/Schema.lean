import Bkndb.Core.Error

/-!
# Relational schemas

Column kinds, table schemas and the validating builder (`relational/schema`). A schema converted
from a static `RelSchema` is not validated: its primary key need not be declared, nor its
indexed columns. The functions below therefore take any `TableSchema`, and `TableSchemaBuilder.build`
says which ones are well formed.

## Two origins

A static schema is a constant of the program that uses the engine, and is taken as it is; one from
the builder was checked. Both are used as a `TableSchema`, so nothing of what the builder checks
may be assumed of one.

## Comparing schemas

`==` compares columns in order, with their defaults as values: a default that is not equal to
itself, such as a NaN, makes a schema differ from itself.
-/

/-- The kind of a column. -/
inductive ColumnKind where
  | null
  | bool
  | int
  | float
  | str
  | bytes
  | timestamp
  | uuid
  | list
  | map
  deriving DecidableEq, Repr

namespace ColumnKind

/-- The kind of a concrete value. -/
def of : PropValue → ColumnKind
  | .null => null
  | .bool _ => bool
  | .int _ => int
  | .float _ => float
  | .str _ => str
  | .bytes _ => bytes
  | .timestamp _ => timestamp
  | .uuid _ => uuid
  | .list _ => list
  | .map _ => map

/-- Whether values of this kind can be a primary key or be indexed. -/
def isKeyable : ColumnKind → Bool
  | int | str | timestamp | uuid => true
  | _ => false

/-- The kind's name, as `{:?}` prints it. -/
def debug : ColumnKind → String
  | null => "Null"
  | bool => "Bool"
  | int => "Int"
  | float => "Float"
  | str => "Str"
  | bytes => "Bytes"
  | timestamp => "Timestamp"
  | uuid => "Uuid"
  | list => "List"
  | map => "Map"

end ColumnKind

/-- One column, with its constraints. -/
structure ColumnSchema where
  name : String
  kind : ColumnKind
  /-- `false` is `NOT NULL`. -/
  nullable : Bool := true
  /-- No two rows may share a non-null value; implies an index. -/
  unique : Bool := false
  /-- Filled in on insert when the column is absent. -/
  default : Option PropValue := none

/-- A table's schema. -/
structure TableSchema where
  name : String
  columns : List ColumnSchema
  primaryKey : String
  autoIncrementPk : Bool
  /-- Every column with a secondary index. -/
  indexedColumns : List String

namespace ColumnSchema

/-- The derived `==`, which compares defaults as values. -/
def eqv (a b : ColumnSchema) : Bool :=
  a.name == b.name && a.kind == b.kind && a.nullable == b.nullable && a.unique == b.unique &&
    PropValue.eqvOption a.default b.default

end ColumnSchema

namespace TableSchema

/-- The declared column of that name. -/
def column (s : TableSchema) (name : String) : Option ColumnSchema :=
  s.columns.find? (·.name == name)

/-- The primary key's column. -/
def primaryKeyColumn (s : TableSchema) : Except BknError ColumnSchema :=
  .ofOption (.panic "TableSchema.primary_key must name one of its columns") (s.column s.primaryKey)

/-- Whether a column has a secondary index. -/
def isIndexed (s : TableSchema) (column : String) : Bool := s.indexedColumns.contains column

/-- `==` of column lists. -/
def eqvColumns : List ColumnSchema → List ColumnSchema → Bool
  | [], [] => true
  | a :: x, b :: y => a.eqv b && eqvColumns x y
  | _, _ => false

/-- The derived `==`. -/
def eqv (a b : TableSchema) : Bool :=
  a.name == b.name && eqvColumns a.columns b.columns && a.primaryKey == b.primaryKey &&
    a.autoIncrementPk == b.autoIncrementPk && a.indexedColumns == b.indexedColumns

end TableSchema

/-! ## Static schemas -/

/-- A compile-time schema, which nothing validates. -/
structure RelSchema where
  name : String
  columns : List (String × ColumnKind)
  primaryKey : String
  autoIncrementPk : Bool
  indexedColumns : List String

/-- The schema of a static one: every column nullable, not unique and without a default. -/
def TableSchema.ofRelSchema (s : RelSchema) : TableSchema where
  name := s.name
  columns := s.columns.map fun c ↦ { name := c.1, kind := c.2 }
  primaryKey := s.primaryKey
  autoIncrementPk := s.autoIncrementPk
  indexedColumns := s.indexedColumns

/-- A table of points by number, as a static schema. -/
def pointsSchema (indexed : List String) : TableSchema := .ofRelSchema
  { name := "points", columns := [("id", .int), ("x", .int)], primaryKey := "id",
    autoIncrementPk := false, indexedColumns := indexed }

/-! ## The builder

The checks come in the order of the source, and each has its message. What the builder returns
differs from what it was given: the key column is made `NOT NULL`, and unique columns are added to
the indexed ones. -/

/-- Longest table or column name accepted. -/
def maxIdentifierLen : ℕ := 100

/-- ASCII letters, digits and `_`. -/
def isIdentifierChar (c : Char) : Bool := c.isAlphanum || c == '_'

/-- Identifiers are 1 to 100 letters, digits and underscores, without two underscores in a row: those
are kept for derived physical names. The error is the message. -/
def checkIdentifier (what name : String) : Except String Unit := do
  .guardOr (name.utf8.length ≠ 0 ∧ name.utf8.length ≤ maxIdentifierLen)
    s!"{what} name must be 1..={maxIdentifierLen} bytes, got '{name}'"
  .guardOr (name.toList.all isIdentifierChar)
    s!"{what} name '{name}' may only contain ASCII letters, digits and '_'"
  .guardOr (¬['_', '_'] <:+: name.toList) s!"{what} name '{name}' may not contain '__'"

/-- A schema under construction. -/
structure TableSchemaBuilder where
  name : String
  columns : List ColumnSchema := []
  primaryKey : Option String := none
  autoIncrementPk : Bool := false
  indexedColumns : List String := []

namespace TableSchema

/-- A builder pre-filled with this schema. -/
def toBuilder (s : TableSchema) : TableSchemaBuilder where
  name := s.name
  columns := s.columns
  primaryKey := some s.primaryKey
  autoIncrementPk := s.autoIncrementPk
  indexedColumns := s.indexedColumns

end TableSchema

namespace TableSchemaBuilder

/-- Add an index. -/
def index (b : TableSchemaBuilder) (column : String) : TableSchemaBuilder :=
  if b.indexedColumns.contains column then b
  else { b with indexedColumns := b.indexedColumns ++ [column] }

/-- Remove an index and any `UNIQUE` constraint relying on it. -/
def dropIndex (b : TableSchemaBuilder) (column : String) : TableSchemaBuilder :=
  { b with
    indexedColumns := b.indexedColumns.filter (· != column)
    columns := b.columns.map fun c ↦ if c.name == column then { c with unique := false } else c }

/-- The checks on one column, given the names of the columns before it. -/
def checkColumn (table : String) (seen : List String) (c : ColumnSchema) :
    Except BknError (List String) := do
  match checkIdentifier "column" c.name with
  | .error message => throw (.schemaMismatch table message)
  | .ok () => pure ()
  .guardOr (c.name ∉ seen) (.schemaMismatch table s!"duplicate column '{c.name}'")
  .guardOr (c.kind ≠ .null) (.schemaMismatch table s!"column '{c.name}' cannot have kind Null")
  .guardOr (¬(c.unique ∧ ¬c.kind.isKeyable)) (.schemaMismatch table
    s!"UNIQUE column '{c.name}' must be Int or Str, got {c.kind.debug}")
  match c.default with
  | some .null =>
    .guardOr (c.nullable = true)
      (.schemaMismatch table s!"NOT NULL column '{c.name}' cannot default to null")
  | some v =>
    .guardOr (ColumnKind.of v = c.kind) (.schemaMismatch table
      s!"default for column '{c.name}' must be {c.kind.debug}, got {(ColumnKind.of v).debug}")
  | none => pure ()
  return c.name :: seen

/-- The pk is inherently unique and non-null, and lives in the row key rather than an index. -/
def normalizePk (pk : String) : List ColumnSchema → List ColumnSchema
  | [] => []
  | c :: l =>
    if c.name == pk then { c with nullable := false, unique := false, default := none } :: l
    else c :: normalizePk pk l

/-- Collect one indexed column. -/
def addIndexed (table : String) (columns : List ColumnSchema) (pk : String)
    (indexed : List String) (name : String) : Except BknError (List String) := do
  if name = pk ∨ name ∈ indexed then return indexed
  let c ← .ofOption (.schemaMismatch table s!"indexed column '{name}' is not a declared column")
    (columns.find? (·.name == name))
  .guardOr (c.kind.isKeyable = true) (.schemaMismatch table
    s!"indexed column '{name}' must be Int or Str, got {c.kind.debug}")
  return indexed ++ [name]

/-- Validate and build. -/
def build (b : TableSchemaBuilder) : Except BknError TableSchema := do
  match checkIdentifier "table" b.name with
  | .error message => throw (.schemaMismatch b.name message)
  | .ok () => pure ()
  checkTableName b.name
  let _ ← b.columns.foldlM (checkColumn b.name) []
  let pk ← .ofOption (.schemaMismatch b.name "no primary key declared") b.primaryKey
  let pkCol ← .ofOption
    (.schemaMismatch b.name s!"primary key '{pk}' is not a declared column")
    (b.columns.find? (·.name == pk))
  .guardOr (pkCol.kind.isKeyable = true)
    (.schemaMismatch b.name s!"primary key '{pk}' must be Int or Str, got {pkCol.kind.debug}")
  .guardOr (¬(b.autoIncrementPk ∧ pkCol.kind ≠ .int))
    (.schemaMismatch b.name s!"auto-increment primary key '{pk}' must be Int")
  let columns := normalizePk pk b.columns
  let uniques := (columns.filter (·.unique)).map (·.name)
  let indexed ← (b.indexedColumns ++ uniques).foldlM (addIndexed b.name columns pk) []
  return { name := b.name, columns, primaryKey := pk, autoIncrementPk := b.autoIncrementPk,
           indexedColumns := indexed }

end TableSchemaBuilder
