import Bkndb.Basic.Effect
import Bkndb.Relational.Db

/-!
# Statements on one row

A caller may handle the error of a statement and go on with the transaction, and then what the
statement wrote before it failed is still there. Here the row writes of `relational/db/write.rs` and
what they do to the search indexes are computations that leave a state behind when they fail; where
they succeed they are the functions of `Bkndb.Relational.Write`.

A step that evaluates everything that can fail before it writes is one step. The graph of a vector
index is written as it changes, its metadata when the operation on it is over.

## Two models of one write

`Bkndb.Relational.Write` has the writes as functions that return a state or an error. That is
enough where an error drops the transaction. Here the same writes return the state in both cases,
as computations of `Effect`, and `outcome` forgets what a failure leaves: `outcome_run` says that
the two models agree.
-/

open Effect

namespace Ann.Hnsw

variable {D : Type} [LinearOrder D] (g : Geometry D)

/-- Index a vector; see `add`. -/
def addStep (pk : Bytes) (vector : List F32) : Effect Hnsw BknError Unit :=
  if vector = [] then pure () else do
    step fun h ↦ h.checkDim vector.length
    let h ← get
    match prepare h.annMeta.metric vector with
    | none => pure ()
    | some vector =>
      let n : Node := ⟨levelFor g pk h.annMeta.m, pk, vector⟩
      step fun h ↦ h.place n
      step fun h' ↦ h'.link g h.annMeta.nextId n

/-- Follow one row change; see `onChange`. -/
def onChangeStep (pk : Bytes) (before after : Option PropValue) : Effect Hnsw BknError Unit :=
  if PropValue.eqvOption before after then pure () else do
    modify fun h ↦ if before.isSome then h.remove g pk else h
    match after.bind vectorOf with
    | some v => addStep g pk v
    | none => pure ()

theorem outcome_addStep (pk : Bytes) (vector : List F32) (h : Hnsw) :
    (addStep g pk vector).outcome h = (h.add g pk vector).map (Prod.mk ()) := by
  rw [addStep, add]
  split
  · rfl
  · rw [outcome_bind, outcome_step]
    cases h.checkDim vector.length with
    | error e => rfl
    | ok h₁ =>
      change (_ : Effect Hnsw BknError Unit).outcome h₁ = _
      rw [outcome_bind, outcome_get, Except.ok_bind, Except.ok_bind]
      cases prepare h₁.annMeta.metric vector with
      | none => rfl
      | some v =>
        dsimp only
        rw [outcome_bind, outcome_step, Except.map_bind]
        cases h₁.place ⟨levelFor g pk h₁.annMeta.m, pk, v⟩ with
        | error e => rfl
        | ok h₂ => exact outcome_step _ h₂

theorem outcome_onChangeStep (pk : Bytes) (before after : Option PropValue) (h : Hnsw) :
    (onChangeStep g pk before after).outcome h =
      (h.onChange g pk before after).map (Prod.mk ()) := by
  rw [onChangeStep, onChange]
  split
  · rfl
  · rw [outcome_bind, outcome_modify, Except.ok_bind]
    dsimp only
    cases after.bind vectorOf with
    | none => rfl
    | some v => exact outcome_addStep g pk v _

end Ann.Hnsw

/-- A statement on one row. -/
inductive Statement where
  /-- `insert`, `upsert`. -/
  | insert (values : Properties) (onConflict : OnConflict)
  /-- `insert_with_pk`, `upsert_with_pk`. -/
  | insertWithPk (pk : PropValue) (values : Properties) (onConflict : OnConflict)
  | update (pk : PropValue) (mutate : Properties → Properties)
  | delete (pk : PropValue)

namespace Statement

open TableStore

variable [Unicode] {D : Type} [LinearOrder D] (g : Ann.Geometry D)

/-! ## The search indexes -/

omit [Unicode] in
/-- Follow one row change in one vector column. -/
def annColumnChange (table : String) (pk : Bytes) (old new : Option Properties) (column : String) :
    Effect TableStore BknError Unit :=
  let before := old.bind (·.get? column)
  let after := new.bind (·.get? column)
  if PropValue.eqvOption before after then pure ()
  else onPart
    (fun t ↦ .ofOption (.corruption s!"vector index '{table}.{column}' has no metadata")
      (t.ann column))
    (fun h t ↦ { t with ann := Function.update t.ann column (some h) })
    -- the metadata is saved at the end
    (fun h h' t ↦ { t with
      ann := Function.update t.ann column (some { h' with annMeta := h.annMeta }) })
    (Ann.Hnsw.onChangeStep g pk before after)

/-- Follow one row change in one full-text column. -/
def ftsColumnChange (pk : Bytes) (old new : Option Properties) (column : String) :
    Effect TableStore BknError Unit :=
  let before := textOf old column
  let after := textOf new column
  if before = after then pure () else do
    match before with
    | some text => step fun t ↦ t.unindexText column pk text
    | none => pure ()
    match after with
    | some text => step fun t ↦ t.indexText column pk text
    | none => pure ()

/-- Keep the full-text and vector indexes in step with one row change. -/
def onRowChange (schema : TableSchema) (pk : PropValue) (old new : Option Properties) :
    Effect TableStore BknError Unit := do
  let t ← get
  if t.ftsColumns = [] ∧ t.annColumns = [] then pure () else do
    let pk ← ofExcept (sortableEncode pk)
    t.annColumns.forM (annColumnChange g schema.name pk old new)
    t.ftsColumns.forM (ftsColumnChange pk old new)

omit [Unicode] in
theorem outcome_annColumnChange (table : String) (pk : Bytes) (old new : Option Properties)
    (column : String) (t : TableStore) : (annColumnChange g table pk old new column).outcome t =
      (TableStore.annColumnChange g table pk old new t column).map (Prod.mk ()) := by
  rw [annColumnChange, TableStore.annColumnChange]
  split
  · rfl
  · rw [outcome_onPart]
    cases t.ann column with
    | none => rfl
    | some h =>
      dsimp only [Except.ofOption]
      rw [Except.ok_bind, Except.ok_bind, Ann.Hnsw.outcome_onChangeStep]
      cases h.onChange g pk (old.bind (·.get? column)) (new.bind (·.get? column)) <;> rfl

theorem outcome_ftsColumnChange (pk : Bytes) (old new : Option Properties) (column : String)
    (t : TableStore) : (ftsColumnChange pk old new column).outcome t =
      (TableStore.ftsColumnChange pk old new t column).map (Prod.mk ()) := by
  rw [ftsColumnChange, TableStore.ftsColumnChange]
  dsimp only
  split
  · rfl
  have hadd : ∀ s : TableStore, (match textOf new column with
      | some text => step fun t ↦ t.indexText column pk text
      | none => pure () : Effect TableStore BknError Unit).outcome s =
      (match textOf new column with
      | some text => s.indexText column pk text
      | none => pure s).map (Prod.mk ()) := fun s ↦ by
    cases textOf new column with
    | none => rfl
    | some text => exact outcome_step _ s
  cases textOf old column with
  | none => exact hadd t
  | some text =>
    rw [outcome_bind, outcome_step, Except.map_bind]
    cases t.unindexText column pk text with
    | error e => rfl
    | ok s => exact hadd s

theorem outcome_onRowChange (schema : TableSchema) (pk : PropValue) (old new : Option Properties)
    (t : TableStore) : (onRowChange g schema pk old new).outcome t =
      (t.onRowChange g schema pk old new).map (Prod.mk ()) := by
  rw [onRowChange, TableStore.onRowChange, outcome_bind, outcome_get, Except.ok_bind]
  dsimp only
  split
  · rfl
  · rw [outcome_bind, outcome_ofExcept]
    cases sortableEncode pk with
    | error e => rfl
    | ok k =>
      rw [Except.ok_bind]
      change (_ : Effect TableStore BknError Unit).outcome t = _
      rw [outcome_bind, outcome_forM (outcome_annColumnChange g schema.name k old new),
        Except.map_bind]
      cases ha : t.annColumns.foldlM (TableStore.annColumnChange g schema.name k old new) t with
      | error e => rfl
      | ok s =>
        -- the vector columns leave the list of text columns alone
        have hsame : s.ftsColumns = t.ftsColumns :=
          Except.foldlM_invariant (fun s ↦ s.ftsColumns = t.ftsColumns) ha rfl
            fun c _ s s' hs hstep ↦ (annColumnChange_eq_ok hstep).1.ftsColumns.trans hs
        rw [← hsame]
        exact outcome_forM (outcome_ftsColumnChange k old new) _ s

/-! ## Row writes -/

/-- Write a row under a primary key. -/
def writeRowIn (schema : TableSchema) (pk : PropValue) (values : Properties)
    (onConflict : OnConflict) : Effect TableStore BknError Unit := do
  let stored := storedValues schema values
  ofExcept (validateRow schema pk stored)
  let key ← ofExcept (sortableEncode pk)
  let t ← get
  let old := t.rows.get? key
  ofExcept (.guardOr (old = none ∨ onConflict = .replace)
    (.duplicateKey schema.name (pkDisplay pk)))
  ofExcept (t.checkUnique schema ⟨pk, stored⟩ none)
  match old with
  | some values =>
    schema.indexedColumns.forM (fun c ↦ step fun t ↦ t.removeIndexEntry schema ⟨pk, values⟩ c)
  | none => pure ()
  modify fun t ↦ { t with rows := t.rows.insert key stored }
  schema.indexedColumns.forM (fun c ↦ step fun t ↦ t.addIndexEntry schema ⟨pk, stored⟩ c)
  onRowChange g schema pk old (some stored)

/-- Delete a row. -/
def deleteRowIn (schema : TableSchema) (pk : PropValue) : Effect TableStore BknError Unit := do
  let t ← get
  match t.getIn pk with
  | none => pure ()
  | some row =>
    let key ← ofExcept (sortableEncode pk)
    modify fun t ↦ { t with rows := t.rows.erase key }
    schema.indexedColumns.forM (fun c ↦ step fun t ↦ t.removeIndexEntry schema row c)
    onRowChange g schema pk (some row.values) none

omit [Unicode] in
/-- Replace a row's entry in one column's index, when the value changed. -/
def updateIndexEntry (schema : TableSchema) (old new : Row) (column : String) :
    Effect TableStore BknError Unit :=
  if PropValue.eqvOption (indexable old schema column) (indexable new schema column) then pure ()
  else do
    step fun t ↦ t.removeIndexEntry schema old column
    step fun t ↦ t.addIndexEntry schema new column

/-- Update a row in place. -/
def updateRowIn (schema : TableSchema) (pk : PropValue) (mutate : Properties → Properties) :
    Effect TableStore BknError Unit := do
  let t ← get
  match t.getIn pk with
  | none => pure ()
  | some old =>
    let new : Row := ⟨pk, (mutate old.values).erase schema.primaryKey⟩
    ofExcept (validateRow schema pk new.values)
    ofExcept (t.checkUnique schema new (some old))
    schema.indexedColumns.forM (updateIndexEntry schema old new)
    let key ← ofExcept (sortableEncode pk)
    modify fun t ↦ { t with rows := t.rows.insert key new.values }
    onRowChange g schema pk (some old.values) (some new.values)

omit [Unicode] in
theorem outcome_removeEntries (schema : TableSchema) (row : Row) (columns : List String)
    (t : TableStore) :
    (columns.forM (fun c ↦ step fun t ↦ t.removeIndexEntry schema row c) :
      Effect TableStore BknError Unit).outcome t =
      (columns.foldlM (removeIndexEntry schema row) t).map (Prod.mk ()) :=
  outcome_forM (fun c ↦ outcome_step fun t ↦ t.removeIndexEntry schema row c) columns t

omit [Unicode] in
theorem outcome_addEntries (schema : TableSchema) (row : Row) (columns : List String)
    (t : TableStore) :
    (columns.forM (fun c ↦ step fun t ↦ t.addIndexEntry schema row c) :
      Effect TableStore BknError Unit).outcome t =
      (columns.foldlM (addIndexEntry schema row) t).map (Prod.mk ()) :=
  outcome_forM (fun c ↦ outcome_step fun t ↦ t.addIndexEntry schema row c) columns t

omit [Unicode] in
theorem outcome_updateEntries (schema : TableSchema) (old new : Row) (columns : List String)
    (t : TableStore) : (columns.forM (updateIndexEntry schema old new)).outcome t =
      (columns.foldlM (TableStore.updateIndexEntry schema old new) t).map (Prod.mk ()) := by
  refine outcome_forM (fun c s ↦ ?_) columns t
  rw [updateIndexEntry, TableStore.updateIndexEntry]
  split
  · rfl
  · rw [outcome_bind, outcome_step, Except.map_bind]
    cases s.removeIndexEntry schema old c with
    | error e => rfl
    | ok s' => exact outcome_step _ s'

/-- **A row write that succeeds is the one of the model above.** -/
theorem outcome_writeRowIn (schema : TableSchema) (pk : PropValue) (values : Properties)
    (onConflict : OnConflict) (t : TableStore) :
    (writeRowIn g schema pk values onConflict).outcome t =
      (t.writeRowIn g schema pk values onConflict).map (Prod.mk ()) := by
  simp only [writeRowIn, TableStore.writeRowIn, outcome_bind, outcome_ofExcept, outcome_get,
    Except.map_bind, Except.bind_map, Except.ok_bind]
  refine bind_congr fun _ ↦ bind_congr fun k ↦ bind_congr fun _ ↦ bind_congr fun _ ↦ ?_
  cases t.rows.get? k <;>
    simp only [outcome_bind, outcome_modify, outcome_removeEntries, outcome_addEntries,
      outcome_onRowChange, Except.map_bind, Except.bind_map, Except.ok_bind,
      pure_bind]

theorem outcome_deleteRowIn (schema : TableSchema) (pk : PropValue) (t : TableStore) :
    (deleteRowIn g schema pk).outcome t =
      (t.deleteRowIn g schema pk).map fun p ↦ ((), p.2) := by
  simp only [deleteRowIn, TableStore.deleteRowIn, outcome_bind, outcome_get, Except.ok_bind]
  cases t.getIn pk with
  | none => rfl
  | some row =>
    simp only [outcome_bind, outcome_ofExcept, outcome_modify, outcome_removeEntries,
      outcome_onRowChange, Except.map_bind, Except.bind_map, Except.ok_bind]
    refine bind_congr fun _ ↦ bind_congr fun s ↦ ?_
    cases s.onRowChange g schema pk (some row.values) none <;> rfl

theorem outcome_updateRowIn (schema : TableSchema) (pk : PropValue)
    (mutate : Properties → Properties) (t : TableStore) :
    (updateRowIn g schema pk mutate).outcome t =
      (t.updateRowIn g schema pk mutate).map fun p ↦ ((), p.2) := by
  simp only [updateRowIn, TableStore.updateRowIn, outcome_bind, outcome_get, Except.ok_bind]
  cases t.getIn pk with
  | none => rfl
  | some row =>
    simp only [outcome_bind, outcome_ofExcept, outcome_modify, outcome_updateEntries,
      outcome_onRowChange, Except.map_bind, Except.bind_map, Except.ok_bind]
    refine bind_congr fun _ ↦ bind_congr fun _ ↦ bind_congr fun s ↦ bind_congr fun k ↦ ?_
    cases TableStore.onRowChange g { s with
      rows := s.rows.insert k ((mutate row.values).erase schema.primaryKey) } schema pk
        (some row.values) (some ((mutate row.values).erase schema.primaryKey)) <;> rfl

/-! ## The statements -/

/-- Insert a row, under a key it names or a fresh one. -/
def insertIn (schema : TableSchema) (values : Properties) (onConflict : OnConflict) :
    Effect TableStore BknError Unit :=
  if allocatesPk schema values then do
    let next ← lift fun t ↦ t.reservePks 1
    -- `next += 1` on `i64`
    ofExcept (.guardOr (next ≠ Int64.maxValue) (.panic "attempt to add with overflow"))
    writeRowIn g schema (.int next) values onConflict
  else do
    let pk ← ofExcept (.ofOption
      (.encoding s!"missing primary key column '{schema.primaryKey}'") (explicitPk schema values))
    modify fun t ↦ t.noteExplicitPk schema pk
    writeRowIn g schema pk values onConflict

/-- Insert a row under a given key. -/
def insertWithPkIn (schema : TableSchema) (pk : PropValue) (values : Properties)
    (onConflict : OnConflict) : Effect TableStore BknError Unit := do
  ofExcept (.guardOr (¬(schema.autoIncrementPk ∧ onConflict = .error)) (.encoding
    ("insert_with_pk cannot be used on an auto-increment schema " ++
      "(use insert, or upsert_with_pk)")))
  modify fun t ↦ t.noteExplicitPk schema pk
  writeRowIn g schema pk values onConflict

/-- A statement under a resolved schema. -/
def apply (schema : TableSchema) : Statement → Effect TableStore BknError Unit
  | insert values onConflict => insertIn g schema values onConflict
  | insertWithPk pk values onConflict => insertWithPkIn g schema pk values onConflict
  | update pk mutate => updateRowIn g schema pk mutate
  | delete pk => deleteRowIn g schema pk

/-- A statement through a handle. -/
def run (ref : TableRef) (s : Statement) : Effect TableStore BknError Unit := do
  ofExcept (checkTableName ref.schema.name)
  let t ← get
  let schema ← ofExcept (t.resolveRef ref)
  s.apply g schema

omit [Unicode] in
/-- The operation that a statement is. -/
def toOp : Statement → RowOp
  | insert values onConflict => .insertBulk [values] onConflict
  | insertWithPk pk values onConflict => .insertWithPkBulk [(pk, values)] onConflict
  | update pk mutate => .update pk mutate
  | delete pk => .delete pk

theorem outcome_insertIn (schema : TableSchema) (values : Properties) (onConflict : OnConflict)
    (t : TableStore) : (insertIn g schema values onConflict).outcome t =
      (t.insertBulkIn g schema [values] onConflict).map fun p ↦ ((), p.2) := by
  rw [insertIn, insertBulkIn]
  by_cases ha : allocatesPk schema values = true
  · have hcount : [values].countP (allocatesPk schema) = 1 := by simp [ha]
    simp only [if_pos ha, hcount, outcome_bind, outcome_lift, outcome_ofExcept,
      outcome_writeRowIn, Except.map_bind, Except.bind_map, List.foldlM_cons, List.foldlM_nil,
      insertStep, bind_assoc]
    refine bind_congr fun p ↦ bind_congr fun _ ↦ ?_
    cases TableStore.writeRowIn g p.2 schema (.int p.1) values onConflict <;> rfl
  · have hcount : [values].countP (allocatesPk schema) = 0 := by simp [ha]
    simp only [if_neg ha, hcount, reservePks, outcome_bind, outcome_ofExcept, outcome_modify,
      outcome_writeRowIn, Except.map_bind, Except.bind_map, Except.ok_bind, pure_bind,
      List.foldlM_cons, List.foldlM_nil, insertStep, bind_assoc, if_true]
    refine bind_congr fun pk ↦ ?_
    cases TableStore.writeRowIn g (t.noteExplicitPk schema pk) schema pk values onConflict <;> rfl

theorem outcome_insertWithPkIn (schema : TableSchema) (pk : PropValue) (values : Properties)
    (onConflict : OnConflict) (t : TableStore) :
    (insertWithPkIn g schema pk values onConflict).outcome t =
      (t.insertWithPkBulkIn g schema [(pk, values)] onConflict).map (Prod.mk ()) := by
  simp only [insertWithPkIn, insertWithPkBulkIn, outcome_bind, outcome_ofExcept, outcome_modify,
    outcome_writeRowIn, Except.map_bind, Except.bind_map, Except.ok_bind, List.foldlM_cons,
    List.foldlM_nil, bind_pure]

/-- **A statement that succeeds is an operation of the database.** -/
theorem outcome_run (ref : TableRef) (s : Statement) (t : TableStore) :
    (s.run g ref).outcome t = (t.applyOp g (.rows ref s.toOp)).map (Prod.mk ()) := by
  simp only [run, applyOp, outcome_bind, outcome_ofExcept, outcome_get, Except.map_bind,
    Except.bind_map, Except.ok_bind]
  refine bind_congr fun _ ↦ bind_congr fun schema ↦ ?_
  cases s with
  | insert values onConflict =>
    refine (outcome_insertIn g schema values onConflict t).trans ?_
    rw [toOp, applyRowOp]
    cases t.insertBulkIn g schema [values] onConflict <;> rfl
  | insertWithPk pk values onConflict => exact outcome_insertWithPkIn g schema pk values onConflict t
  | update pk mutate =>
    refine (outcome_updateRowIn g schema pk mutate t).trans ?_
    rw [toOp, applyRowOp]
    cases t.updateRowIn g schema pk mutate <;> rfl
  | delete pk =>
    refine (outcome_deleteRowIn g schema pk t).trans ?_
    rw [toOp, applyRowOp]
    cases t.deleteRowIn g schema pk <;> rfl

end Statement
