import Bkndb.Relational.Table

/-!
# Full-text indexes

Tokens, postings and their maintenance (`relational/search/fulltext.rs`). A posting is stored under
the term, a NUL byte and the row's key, and counts the term's occurrences; the documents table
holds each row's number of tokens, and the statistics their totals.

## Tables

The postings of a term are the keys that start with the term and a NUL byte, so a search scans a
range. Lengths and counts are numbers of four bytes; a number of tokens is cut to that when it is
written, and a count of occurrences that leaves it is a panic.

## Maintenance

A row change takes the old text out and puts the new one in, unless the two are the same.
-/

namespace TableStore

variable [Unicode]

/-- `term ++ 0x00 ++ pk`. -/
def postingsKey (term : String) (pk : Bytes) : Bytes := term.utf8 ++ 0 :: pk

/-- The text of a column, if it holds one. -/
def textOf (values : Option Properties) (column : String) : Option String :=
  match values.bind (·.get? column) with
  | some (.str s) => some s
  | _ => none

/-- `*tf.entry(t).or_default() += 1` on `u32` counters. -/
def countTerm (tf : OrdMap String ℕ) (t : String) : Except BknError (OrdMap String ℕ) :=
  let n := (tf.get? t).getD 0
  if n + 1 < 2 ^ 32 then .ok (tf.insert t (n + 1))
  else .error (.panic "attempt to add with overflow")

/-- The occurrences of each term. -/
def termFrequencies (tokens : List String) : Except BknError (OrdMap String ℕ) :=
  tokens.foldlM countTerm ∅

/-- The statistics of a column, `(0, 0)` when there are none. -/
def loadStats (t : TableStore) (column : String) : ℕ × ℕ := (t.ftsStats column).getD (0, 0)

/-- Add a text to the index. -/
def indexText (t : TableStore) (column : String) (pk : Bytes) (text : String) :
    Except BknError TableStore := do
  let tokens := tokenize text
  let tf ← termFrequencies tokens
  let (docs, terms) := t.loadStats column
  let docs ← checkedAdd docs 1
  let terms ← checkedAdd terms tokens.length
  return { t with
    postings := Function.update t.postings column
      ((t.postings column).insertAll (tf.entries.map fun e ↦ (postingsKey e.1 pk, e.2)))
    -- `tokens.len() as u32`
    docs := Function.update t.docs column ((t.docs column).insert pk (tokens.length % 2 ^ 32))
    ftsStats := Function.update t.ftsStats column (some (docs, terms)) }

/-- Take a text out of the index; the totals saturate at zero. -/
def unindexText (t : TableStore) (column : String) (pk : Bytes) (text : String) :
    Except BknError TableStore := do
  let tokens := tokenize text
  let tf ← termFrequencies tokens
  let (docs, terms) := t.loadStats column
  return { t with
    postings := Function.update t.postings column
      ((t.postings column).eraseAll (tf.keys.map (postingsKey · pk)))
    docs := Function.update t.docs column ((t.docs column).erase pk)
    ftsStats := Function.update t.ftsStats column (some (docs - 1, terms - tokens.length)) }

/-- Follow one row change in one full-text column. -/
def ftsColumnChange (pk : Bytes) (old new : Option Properties) (t : TableStore) (column : String) :
    Except BknError TableStore := do
  let before := textOf old column
  let after := textOf new column
  if before = after then return t
  let t ← match before with
    | some text => t.unindexText column pk text
    | none => pure t
  match after with
  | some text => t.indexText column pk text
  | none => return t

/-- Clear the tables and statistics of one column. -/
def dropIndexData (t : TableStore) (column : String) : TableStore :=
  { t with
    postings := Function.update t.postings column ∅
    docs := Function.update t.docs column ∅
    ftsStats := Function.update t.ftsStats column none }

/-- Whether a schema still has the text column. -/
def isTextColumn (schema : Option TableSchema) (column : String) : Bool :=
  (schema.bind (·.column column)).any (·.kind = .str)

/-- Drop the full-text indexes of columns the schema no longer has. -/
def ftsRetainValid (t : TableStore) (schema : Option TableSchema) : TableStore :=
  let keep := t.ftsColumns.filter (isTextColumn schema)
  let gone := t.ftsColumns.filter (!isTextColumn schema ·)
  if gone = [] then t
  else { gone.foldl dropIndexData t with ftsColumns := keep }

/-- Index the text of an existing row. -/
def indexRow (column : String) (t : TableStore) (row : Row) : Except BknError TableStore :=
  match textOf (some row.values) column with
  | some text => do t.indexText column (← sortableEncode row.pk) text
  | none => pure t

/-- Build a full-text index over existing rows; `false` if it already exists. -/
def createFulltextIndexIn (t : TableStore) (table column : String) :
    Except BknError (Bool × TableStore) := do
  checkTableName table
  let schema ← .ofOption (.tableNotFound table) t.schema
  match schema.column column with
  | some c =>
    .guardOr (c.kind = .str ∧ column ≠ schema.primaryKey) (.schemaMismatch table
      s!"full-text indexes need a non-key Str column; '{column}' isn't one")
  | none => throw (.schemaMismatch table s!"unknown column '{column}'")
  if column ∈ t.ftsColumns then return (false, t)
  let t := { t.dropIndexData column with ftsColumns := t.ftsColumns ++ [column] }
  let rows ← t.scanAllIn schema
  let t ← rows.foldlM (indexRow column) t
  return (true, t)

/-- Remove a full-text index; `false` if there was none. -/
def dropFulltextIndexIn (t : TableStore) (column : String) : Bool × TableStore :=
  if column ∈ t.ftsColumns then
    (true, { t.dropIndexData column with ftsColumns := t.ftsColumns.erase column })
  else (false, t)

end TableStore
