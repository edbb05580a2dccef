import Bkndb.Relational.Table

/-!
# Vector indexes of a table

Creating, dropping and maintaining the vector indexes of one table (`relational/ann/mod.rs`).

An index is created over the rows that are there, one after the other, and then follows every row
change. A schema in which its column is gone, or is no list and no byte string, drops the index.
-/

namespace TableStore

open Ann

variable {D : Type} [LinearOrder D] (g : Geometry D)

/-- Parameters of a vector index. -/
structure VectorIndexOptions where
  metric : VectorMetric := .cosine
  m : ℕ := 16
  efConstruction : ℕ := 200

/-- Follow one row change in one vector column. -/
def annColumnChange (table : String) (pk : Bytes) (old new : Option Properties) (t : TableStore)
    (column : String) : Except BknError TableStore := do
  let before := old.bind (·.get? column)
  let after := new.bind (·.get? column)
  if PropValue.eqvOption before after then return t
  let h ← .ofOption (.corruption s!"vector index '{table}.{column}' has no metadata") (t.ann column)
  let h ← h.onChange g pk before after
  return { t with ann := Function.update t.ann column (some h) }

/-- A column that can have a vector index. -/
def isVectorColumn (schema : TableSchema) (column : String) : Bool :=
  column ≠ schema.primaryKey &&
    (schema.column column).any fun c ↦ c.kind = .list || c.kind = .bytes

/-- Drop the vector indexes of columns the schema no longer has. -/
def annRetainValid (t : TableStore) (schema : Option TableSchema) : TableStore :=
  let keep := t.annColumns.filter fun c ↦ schema.any (isVectorColumn · c)
  let gone := t.annColumns.filter fun c ↦ !schema.any (isVectorColumn · c)
  if gone = [] then t
  else { t with annColumns := keep, ann := fun c ↦ if c ∈ gone then none else t.ann c }

/-- An index with nothing in it. -/
def freshIndex (table column : String) (options : VectorIndexOptions) : Hnsw where
  name := s!"{table}.{column}"
  annMeta :=
    { metric := options.metric, m := options.m,
      efConstruction := min options.efConstruction (2 ^ 32 - 1),
      dim := 0, entry := none, maxLevel := 0, nextId := 1, count := 0 }
  nodes := ∅
  links := ∅
  pks := ∅

/-- Index the vector of an existing row. -/
def addRow (column : String) (h : Hnsw) (row : Row) : Except BknError Hnsw :=
  match (row.values.get? column).bind vectorOf with
  | some v => do h.add g (← sortableEncode row.pk) v
  | none => pure h

/-- Build a vector index over existing rows; `false` if it already exists. -/
def createVectorIndexIn (t : TableStore) (table column : String) (options : VectorIndexOptions) :
    Except BknError (Bool × TableStore) := do
  checkTableName table
  let schema ← .ofOption (.tableNotFound table) t.schema
  .guardOr ((schema.column column).isSome = true)
    (.schemaMismatch table s!"unknown column '{column}'")
  .guardOr (isVectorColumn schema column = true) (.schemaMismatch table
    s!"vector indexes need a non-key List or Bytes column; '{column}' isn't one")
  .guardOr (2 ≤ options.m ∧ options.m ≤ 1024 ∧ options.efConstruction ≠ 0)
    (.invalidQuery "a vector index needs 2 <= m <= 1024 and ef_construction >= 1")
  if column ∈ t.annColumns then return (false, t)
  let rows ← t.scanAllIn schema
  let h ← rows.foldlM (addRow g column) (freshIndex table column options)
  return (true, { t with
    annColumns := t.annColumns ++ [column]
    ann := Function.update t.ann column (some h) })

/-- Remove a vector index; `false` if there was none. -/
def dropVectorIndexIn (t : TableStore) (column : String) : Bool × TableStore :=
  if column ∈ t.annColumns then
    (true, { t with
      annColumns := t.annColumns.erase column
      ann := Function.update t.ann column none })
  else (false, t)

end TableStore
