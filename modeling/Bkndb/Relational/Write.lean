import Bkndb.Relational.Ann.Index
import Bkndb.Relational.Fulltext

/-!
# Row writes

Validation, constraints, index maintenance, insert, update and delete (`relational/db/write.rs`),
with the primary-key counter of `relational/codec.rs`. An error leaves the caller to drop the
transaction, so the functions return the new state only on success.

## The order of a write

Checks come first: the row against the schema, the key, and the unique columns. Then the entries of
a row that is replaced go, the row is put in its table, its entries follow, and then the search
indexes. Anything that fails after the checks leaves what was written before it, and the
transaction has to be dropped; that is described in the module on statements.

## The counter

Keys that are allocated come from a counter, a block at a time; a key that a row names moves the
counter past itself, if it is an integer of an auto-increment table.
-/

/-- What a write does when the primary key is taken. -/
inductive OnConflict where
  /-- Fail with `DuplicateKey`. -/
  | error
  /-- Replace the old row. -/
  | replace
  deriving DecidableEq

/-! ## Validation -/

/-- A column must be declared and hold a value of its kind, or null. -/
def checkValue (schema : TableSchema) (name : String) (v : PropValue) : Except BknError Unit := do
  let c ← .ofOption
    (.schemaMismatch schema.name s!"column '{name}' is not declared in the schema")
    (schema.column name)
  .guardOr (v.isNull = true ∨ ColumnKind.of v = c.kind) (.schemaMismatch schema.name
    s!"column '{name}' expects {c.kind.debug}, got {(ColumnKind.of v).debug}")

/-- A `NOT NULL` column other than the key must have a value. -/
def checkNotNull (schema : TableSchema) (values : Properties) (c : ColumnSchema) :
    Except BknError Unit :=
  .guardOr (c.nullable = true ∨ c.name = schema.primaryKey ∨
    (nonNull (values.get? c.name)).isSome = true)
    (.constraintViolation schema.name s!"column '{c.name}' is NOT NULL")

/-- Check a row against the schema. -/
def validateRow (schema : TableSchema) (pk : PropValue) (values : Properties) :
    Except BknError Unit := do
  .guardOr (pk.isNull = false)
    (.schemaMismatch schema.name s!"primary key '{schema.primaryKey}' cannot be null")
  checkValue schema schema.primaryKey pk
  values.entries.forM fun e ↦ checkValue schema e.1 e.2
  schema.columns.forM (checkNotNull schema values)

/-- A primary key in a message. -/
def pkDisplay : PropValue → Message
  | .int i => [.text (toString i.toInt)]
  | .str s => [.quoted s]
  | v => [.debug v]

namespace TableStore

/-- One `UNIQUE` column: no other row may hold the value. With `changedFrom`, a value that did not
change is not looked up. -/
def checkUniqueColumn (t : TableStore) (schema : TableSchema) (row : Row)
    (changedFrom : Option Row) (c : ColumnSchema) : Except BknError Unit :=
  match indexable row schema c.name with
  | none => .ok ()
  | some v =>
    if changedFrom.any fun old ↦ PropValue.eqvOption (old.get schema c.name) (some v) then .ok ()
    else do
      let others ← t.indexLookupEqIn schema c.name v
      .guardOr (others.all fun other ↦ other.pk.eqv row.pk)
        (.constraintViolation schema.name
          [.text s!"UNIQUE column '{c.name}' already has value ", .debug v])

/-- Fail if another row holds any of the row's `UNIQUE` values. -/
def checkUnique (t : TableStore) (schema : TableSchema) (row : Row) (changedFrom : Option Row) :
    Except BknError Unit :=
  (schema.columns.filter (·.unique)).forM (t.checkUniqueColumn schema row changedFrom)

/-! ## Index maintenance

An entry is put or deleted under the index key of the value and the row. Nothing is counted, so
putting an entry twice is putting it once. -/

/-- Put a row's entry in one column's index. -/
def addIndexEntry (schema : TableSchema) (row : Row) (t : TableStore) (column : String) :
    Except BknError TableStore :=
  match indexable row schema column with
  | none => .ok t
  | some v => do
    let k ← indexKey v row.pk
    return { t with index := Function.update t.index column ((t.index column).insert k ()) }

/-- Take a row's entry out of one column's index. -/
def removeIndexEntry (schema : TableSchema) (row : Row) (t : TableStore) (column : String) :
    Except BknError TableStore :=
  match indexable row schema column with
  | none => .ok t
  | some v => do
    let k ← indexKey v row.pk
    return { t with index := Function.update t.index column ((t.index column).erase k) }

/-- Replace a row's entry in one column's index, when the value changed. -/
def updateIndexEntry (schema : TableSchema) (old new : Row) (t : TableStore) (column : String) :
    Except BknError TableStore :=
  if PropValue.eqvOption (indexable old schema column) (indexable new schema column) then .ok t
  else do
    let t ← t.removeIndexEntry schema old column
    t.addIndexEntry schema new column

variable [Unicode] {D : Type} [LinearOrder D] (g : Ann.Geometry D)

/-- Keep the full-text and vector indexes in step with one row change. -/
def onRowChange (t : TableStore) (schema : TableSchema) (pk : PropValue)
    (old new : Option Properties) : Except BknError TableStore := do
  if t.ftsColumns = [] ∧ t.annColumns = [] then return t
  let pk ← sortableEncode pk
  let t ← t.annColumns.foldlM (annColumnChange g schema.name pk old new) t
  t.ftsColumns.foldlM (ftsColumnChange pk old new) t

/-! ## Writing a row -/

/-- The stored values: without the primary key, and with defaults filled in. -/
def storedValues (schema : TableSchema) (values : Properties) : Properties :=
  schema.columns.foldl (fun stored c ↦ match c.default with
    | some d =>
      if c.name ≠ schema.primaryKey ∧ (stored.get? c.name).isNone then stored.insert c.name d
      else stored
    | none => stored) (values.erase schema.primaryKey)

/-- Write a row under a primary key. -/
def writeRowIn (t : TableStore) (schema : TableSchema) (pk : PropValue) (values : Properties)
    (onConflict : OnConflict) : Except BknError TableStore := do
  let stored := storedValues schema values
  validateRow schema pk stored
  let key ← sortableEncode pk
  let old := t.rows.get? key
  .guardOr (old = none ∨ onConflict = .replace) (.duplicateKey schema.name (pkDisplay pk))
  let row : Row := ⟨pk, stored⟩
  t.checkUnique schema row none
  -- a replaced row's index entries must go, or lookups on its old values keep returning this pk
  let t ← match old with
    | some values => schema.indexedColumns.foldlM (removeIndexEntry schema ⟨pk, values⟩) t
    | none => pure t
  let t := { t with rows := t.rows.insert key stored }
  let t ← schema.indexedColumns.foldlM (addIndexEntry schema row) t
  t.onRowChange g schema pk old (some stored)

/-- Delete a row; whether it existed. -/
def deleteRowIn (t : TableStore) (schema : TableSchema) (pk : PropValue) :
    Except BknError (Bool × TableStore) := do
  match t.getIn pk with
  | none => return (false, t)
  | some row =>
    let key ← sortableEncode pk
    let t := { t with rows := t.rows.erase key }
    let t ← schema.indexedColumns.foldlM (removeIndexEntry schema row) t
    return (true, ← t.onRowChange g schema pk (some row.values) none)

/-- Update a row in place; whether it existed. -/
def updateRowIn (t : TableStore) (schema : TableSchema) (pk : PropValue)
    (mutate : Properties → Properties) : Except BknError (Bool × TableStore) := do
  match t.getIn pk with
  | none => return (false, t)
  | some old =>
    let new : Row := ⟨pk, (mutate old.values).erase schema.primaryKey⟩
    validateRow schema pk new.values
    t.checkUnique schema new (some old)
    let t ← schema.indexedColumns.foldlM (updateIndexEntry schema old new) t
    let key ← sortableEncode pk
    let t := { t with rows := t.rows.insert key new.values }
    return (true, ← t.onRowChange g schema pk (some old.values) (some new.values))

/-! ## Inserting -/

/-- The primary key a row names itself. -/
def explicitPk (schema : TableSchema) (values : Properties) : Option PropValue :=
  nonNull (values.get? schema.primaryKey)

/-- Whether an insert gets a fresh primary key. -/
def allocatesPk (schema : TableSchema) (values : Properties) : Bool :=
  schema.autoIncrementPk && (explicitPk schema values).isNone

/-- Reserve a block of primary keys; the first one, `as i64`. -/
def reservePks (t : TableStore) (count : ℕ) : Except BknError (Int64 × TableStore) := do
  if count = 0 then return (0, t)
  let current := t.counter.getD 1
  let next ← checkedAdd current count
  return ((UInt64.ofNat current).toInt64, { t with counter := some next })

/-- Make future allocations start after `pk`. -/
def bumpPkCounterPast (t : TableStore) (pk : Int64) : TableStore :=
  if pk.toInt < 1 then t
  else
    let needed := pk.toInt.toNat + 1
    if t.counter.getD 1 < needed then { t with counter := some needed } else t

/-- An explicit integer key on an auto-increment table moves the counter. -/
def noteExplicitPk (t : TableStore) (schema : TableSchema) (pk : PropValue) : TableStore :=
  match pk with
  | .int i => if schema.autoIncrementPk then t.bumpPkCounterPast i else t
  | _ => t

/-- Insert one row of a batch; `next` is the next reserved key. -/
def insertStep (schema : TableSchema) (onConflict : OnConflict)
    (st : Int64 × List PropValue × TableStore) (values : Properties) :
    Except BknError (Int64 × List PropValue × TableStore) := do
  let (next, pks, t) := st
  if allocatesPk schema values then
    -- `next += 1` on `i64`
    .guardOr (next ≠ Int64.maxValue) (.panic "attempt to add with overflow")
    let t ← t.writeRowIn g schema (.int next) values onConflict
    return (next + 1, pks ++ [.int next], t)
  else
    let pk ← .ofOption (.encoding s!"missing primary key column '{schema.primaryKey}'")
      (explicitPk schema values)
    let t ← (t.noteExplicitPk schema pk).writeRowIn g schema pk values onConflict
    return (next, pks ++ [pk], t)

/-- Insert rows, reserving the keys they need in one counter update. -/
def insertBulkIn (t : TableStore) (schema : TableSchema) (items : List Properties)
    (onConflict : OnConflict) : Except BknError (List PropValue × TableStore) := do
  let (next, t) ← t.reservePks (items.countP (allocatesPk schema))
  let (_, pks, t) ← items.foldlM (insertStep g schema onConflict) (next, [], t)
  return (pks, t)

/-- Insert rows under given primary keys. -/
def insertWithPkBulkIn (t : TableStore) (schema : TableSchema)
    (items : List (PropValue × Properties)) (onConflict : OnConflict) :
    Except BknError TableStore := do
  .guardOr (¬(schema.autoIncrementPk ∧ onConflict = .error)) (.encoding
    ("insert_with_pk cannot be used on an auto-increment schema " ++
      "(use insert, or upsert_with_pk)"))
  items.foldlM (fun t e ↦
    (t.noteExplicitPk schema e.1).writeRowIn g schema e.1 e.2 onConflict) t

end TableStore
