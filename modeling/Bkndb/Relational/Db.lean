import Bkndb.Relational.Query
import Bkndb.Relational.RowChange
import Mathlib.Logic.Relation

/-!
# The relational database

Handles, operations and transactions (`relational/db/table.rs`, `relational/txn`). A database is a
family of stored tables; an operation works on the one it names. A transaction whose operations all
succeed is committed, any other is dropped.

## Steps

An operation on rows comes down to changes of single rows and moves of the key counter (`RowStep`),
whatever loop it is. An invariant of tables therefore has to be shown for one row change, and holds
for every operation on rows (`applyRowOp_steps`); only the operations of the catalog and of the
search indexes need a look of their own.

The steps also say which values are stored: those that were given, with defaults filled in.
-/

/-- A table handle's schema, and whether it was obtained by name. -/
structure TableRef where
  schema : TableSchema
  byName : Bool

namespace TableStore

/-- Resolve a handle against the catalog, inside the transaction. -/
def resolveRef (t : TableStore) (ref : TableRef) : Except BknError TableSchema :=
  match t.schema with
  | some current =>
    if ref.byName = true ∨ current.eqv ref.schema = true then .ok current
    else .error (.schemaMismatch ref.schema.name
      ("the table is registered with a different definition; " ++
        "use table_named() or ensure_table() first"))
  | none =>
    if ref.byName then .error (.tableNotFound ref.schema.name) else .ok ref.schema

end TableStore

/-- What can be done through a handle. -/
inductive RowOp where
  /-- `insert`, `insert_bulk`, `upsert`, `upsert_bulk`. -/
  | insertBulk (items : List Properties) (onConflict : OnConflict)
  /-- `insert_with_pk`, `upsert_with_pk` and their bulk forms. -/
  | insertWithPkBulk (items : List (PropValue × Properties)) (onConflict : OnConflict)
  | update (pk : PropValue) (mutate : Properties → Properties)
  | updateWhere (q : Query) (sets : List (String × PropValue))
  | delete (pk : PropValue)
  | deleteWhere (q : Query)

/-- An operation of the database. -/
inductive DbOp where
  | rows (ref : TableRef) (op : RowOp)
  | createTable (schema : TableSchema)
  | ensureTable (schema : TableSchema)
  | dropTable (name : String)
  | createIndex (table column : String)
  | dropIndex (table column : String)
  | createFulltextIndex (table column : String)
  | dropFulltextIndex (table column : String)
  | createVectorIndex (table column : String) (options : TableStore.VectorIndexOptions)
  | dropVectorIndex (table column : String)

/-- The table an operation works on. -/
def DbOp.table : DbOp → String
  | rows ref _ => ref.schema.name
  | createTable schema | ensureTable schema => schema.name
  | dropTable name => name
  | createIndex table _ | dropIndex table _ | createFulltextIndex table _
  | dropFulltextIndex table _ | createVectorIndex table _ _ | dropVectorIndex table _ => table

section Apply

variable [Unicode] {D : Type} [LinearOrder D] (g : Ann.Geometry D)

namespace TableStore

/-- A row operation under a resolved schema. -/
def applyRowOp (t : TableStore) (schema : TableSchema) : RowOp → Except BknError TableStore
  | .insertBulk items onConflict => do return (← t.insertBulkIn g schema items onConflict).2
  | .insertWithPkBulk items onConflict => t.insertWithPkBulkIn g schema items onConflict
  | .update pk mutate => do return (← t.updateRowIn g schema pk mutate).2
  | .updateWhere q sets => do return (← t.updateIn g schema q sets).2
  | .delete pk => do return (← t.deleteRowIn g schema pk).2
  | .deleteWhere q => do return (← t.deleteIn g schema q).2

/-- An operation on the table it names. -/
def applyOp (t : TableStore) : DbOp → Except BknError TableStore
  | .rows ref op => do
    checkTableName ref.schema.name
    let schema ← t.resolveRef ref
    t.applyRowOp g schema op
  | .createTable schema => do return (← t.createTableIn schema).2
  | .ensureTable schema => t.ensureTableIn schema
  | .dropTable name => do return (← t.dropTableIn name).2
  | .createIndex table column => t.createIndex table column
  | .dropIndex table column => t.dropIndex table column
  | .createFulltextIndex table column => do return (← t.createFulltextIndexIn table column).2
  | .dropFulltextIndex _ column => return (t.dropFulltextIndexIn column).2
  | .createVectorIndex table column options => do
    return (← t.createVectorIndexIn g table column options).2
  | .dropVectorIndex _ column => return (t.dropVectorIndexIn column).2

end TableStore

/-- A database: what is stored for each table name. -/
abbrev RelStore := String → TableStore

/-- A database with nothing in it. -/
def RelStore.fresh : RelStore := fun _ ↦ {}

/-- One operation of a transaction. -/
def RelStore.apply (s : RelStore) (op : DbOp) : Except BknError RelStore := do
  return Function.update s op.table (← (s op.table).applyOp g op)

end Apply

/-! ## Values given to the database

A property `V` of the values given to the operations is carried along, so that results which need
values of bounded length ask for it where they come in. -/

open PropValue

/-- Every value satisfies `V`. -/
def PropValue.AllOf (V : PropValue → Prop) (values : Properties) : Prop :=
  ∀ c v, values.get? c = some v → V v

/-- Every default satisfies `V`. -/
def TableSchema.Defaults (V : PropValue → Prop) (schema : TableSchema) : Prop :=
  ∀ c ∈ schema.columns, ∀ d, c.default = some d → V d

/-- The values a row operation brings in satisfy `V`. -/
def RowOp.Gives (V : PropValue → Prop) : RowOp → Prop
  | insertBulk items _ => ∀ values ∈ items, AllOf V values
  | insertWithPkBulk items _ => ∀ e ∈ items, V e.1 ∧ AllOf V e.2
  | update _ mutate => ∀ values, AllOf V values → AllOf V (mutate values)
  | updateWhere _ sets => ∀ e ∈ sets, V e.2
  | delete _ | deleteWhere _ => True

/-- The values an operation brings in satisfy `V`. -/
def DbOp.Gives (V : PropValue → Prop) : DbOp → Prop
  | rows ref op => ref.schema.Defaults V ∧ op.Gives V
  | createTable schema | ensureTable schema => schema.Defaults V
  | _ => True

/-- A stored row whose key and values satisfy `V`. -/
structure StoredOf (V : PropValue → Prop) (k : Bytes) (values : Properties) : Prop where
  key : ∃ pk, V pk ∧ sortableKey pk = some k
  values : AllOf V values

theorem RowOp.gives_true (op : RowOp) : op.Gives fun _ ↦ True := by
  cases op with
  | insertBulk items => exact fun _ _ _ _ _ ↦ trivial
  | insertWithPkBulk items => exact fun _ _ ↦ ⟨trivial, fun _ _ _ ↦ trivial⟩
  | update pk mutate => exact fun _ _ _ _ _ ↦ trivial
  | updateWhere q sets => exact fun _ _ ↦ trivial
  | delete => trivial
  | deleteWhere => trivial

theorem PropValue.AllOf.insert {V : PropValue → Prop} {values : Properties} (h : AllOf V values)
    (c : String) {v : PropValue} (hv : V v) : AllOf V (values.insert c v) := by
  intro c' w hw
  by_cases hc : c' = c
  · subst hc
    rw [OrdMap.get?_insert_self, Option.some_inj] at hw
    exact hw ▸ hv
  · rw [OrdMap.get?_insert_of_ne _ _ hc] at hw
    exact h c' w hw

theorem PropValue.AllOf.filter {V : PropValue → Prop} {values : Properties} (h : AllOf V values)
    (p : String → PropValue → Bool) : AllOf V (values.filter p) := by
  intro c v hv
  rw [OrdMap.get?_filter, Option.filter_eq_some_iff] at hv
  exact h c v hv.1

namespace TableStore

theorem allOf_storedValues {V : PropValue → Prop} {schema : TableSchema} (hd : schema.Defaults V)
    {values : Properties} (h : AllOf V values) : AllOf V (storedValues schema values) := by
  rw [storedValues]
  refine List.foldlRecOn (motive := AllOf V) schema.columns _ (h.filter _) fun stored hs c hc ↦ ?_
  split
  · rename_i d hdef
    split
    · exact hs.insert c.name (hd c hc d hdef)
    · exact hs
  · exact hs

theorem allOf_applySets {V : PropValue → Prop} {sets : List (String × PropValue)}
    (hsets : ∀ e ∈ sets, V e.2) {values : Properties} (h : AllOf V values) :
    AllOf V (applySets sets values) :=
  List.foldlRecOn (motive := AllOf V) sets _ h fun _ hs e he ↦ hs.insert e.1 (hsets e he)

end TableStore

variable [Unicode] {D : Type} [LinearOrder D] (g : Ann.Geometry D)

/-! ## Row operations are changes of rows -/

namespace TableStore

/-- One step of a row operation: a row changes, or the key counter moves. What is stored satisfies
`V` if what was there did. -/
inductive RowStep (V : PropValue → Prop) (schema : TableSchema) : TableStore → TableStore → Prop
  | row {pk : PropValue} {k : Bytes} {old new : Option Properties} {t t' : TableStore} :
    RowChange g schema pk k old new t t' →
    ((∀ o, old = some o → StoredOf V k o) → ∀ n, new = some n → StoredOf V k n) →
    RowStep V schema t t'
  | counter (n : Option ℕ) (t : TableStore) : RowStep V schema t { t with counter := n }

/-- The steps of row operations. -/
abbrev RowSteps (V : PropValue → Prop) (schema : TableSchema) : TableStore → TableStore → Prop :=
  Relation.ReflTransGen (RowStep g V schema)

variable {g} {V : PropValue → Prop} {schema : TableSchema} {t t' : TableStore}

theorem writeRowIn_step {pk : PropValue} {values : Properties} {onConflict : OnConflict}
    (hd : schema.Defaults V) (hpk : V pk) (hvalues : AllOf V values)
    (h : t.writeRowIn g schema pk values onConflict = .ok t') : RowStep g V schema t t' := by
  obtain ⟨k, old, hchange⟩ := writeRowIn_rowChange h
  refine .row hchange fun _ n hn ↦ ?_
  rw [Option.some_inj] at hn
  exact ⟨⟨pk, hpk, hchange.key⟩, hn ▸ allOf_storedValues hd hvalues⟩

theorem deleteRowIn_steps {pk : PropValue} {b : Bool} {s : TableStore}
    (hs : RowSteps g V schema s t) (h : t.deleteRowIn g schema pk = .ok (b, t')) :
    RowSteps g V schema s t' := by
  rcases deleteRowIn_rowChange h with rfl | ⟨k, o, hchange⟩
  · exact hs
  · exact hs.tail (.row hchange fun _ n hn ↦ by simp at hn)

theorem updateRowIn_steps {pk : PropValue} {mutate : Properties → Properties} {b : Bool}
    {s : TableStore} (hm : ∀ values, AllOf V values → AllOf V (mutate values))
    (hs : RowSteps g V schema s t) (h : t.updateRowIn g schema pk mutate = .ok (b, t')) :
    RowSteps g V schema s t' := by
  rcases updateRowIn_rowChange h with rfl | ⟨k, o, hchange⟩
  · exact hs
  · refine hs.tail (.row hchange fun hold n hn ↦ ?_)
    rw [Option.some_inj] at hn
    obtain ⟨hkey, hvalues⟩ := hold o rfl
    exact ⟨hkey, hn ▸ (hm o hvalues).filter _⟩

omit [Unicode] in
theorem noteExplicitPk_step (t : TableStore) (schema : TableSchema) (pk : PropValue) :
    ∃ n, t.noteExplicitPk schema pk = { t with counter := n } := by
  unfold noteExplicitPk
  split
  · split
    · rw [bumpPkCounterPast]
      split
      · exact ⟨t.counter, rfl⟩
      · dsimp only
        split
        · exact ⟨_, rfl⟩
        · exact ⟨t.counter, rfl⟩
    · exact ⟨t.counter, rfl⟩
  · exact ⟨t.counter, rfl⟩

theorem noteAndWrite_steps {pk : PropValue} {values : Properties} {onConflict : OnConflict}
    {s : TableStore} (hd : schema.Defaults V) (hpk : V pk) (hvalues : AllOf V values)
    (hs : RowSteps g V schema s t)
    (h : (t.noteExplicitPk schema pk).writeRowIn g schema pk values onConflict = .ok t') :
    RowSteps g V schema s t' := by
  obtain ⟨n, hn⟩ := noteExplicitPk_step t schema pk
  rw [hn] at h
  exact (hs.tail (.counter n t)).tail (writeRowIn_step hd hpk hvalues h)

theorem insertBulkIn_steps {items : List Properties} {onConflict : OnConflict}
    {pks : List PropValue} (hint : ∀ i, V (.int i)) (hd : schema.Defaults V)
    (hitems : ∀ values ∈ items, AllOf V values)
    (h : t.insertBulkIn g schema items onConflict = .ok (pks, t')) :
    RowSteps g V schema t t' := by
  simp only [insertBulkIn, Except.bind_eq_ok] at h
  obtain ⟨⟨next, t₁⟩, hreserve, ⟨next', pks', t₂⟩, hloop, h⟩ := h
  obtain ⟨-, rfl⟩ : pks' = pks ∧ t₂ = t' := by simpa [pure, Except.pure] using h
  have h₁ : RowSteps g V schema t t₁ := by
    rw [reservePks] at hreserve
    split at hreserve
    · obtain ⟨-, rfl⟩ := Prod.mk.inj (Except.ok.inj hreserve)
      exact .refl
    · simp only [Except.bind_eq_ok] at hreserve
      obtain ⟨n, -, hreserve⟩ := hreserve
      obtain ⟨-, rfl⟩ := Prod.mk.inj (Except.ok.inj hreserve)
      exact .single (.counter _ t)
  refine Except.foldlM_invariant (fun st ↦ RowSteps g V schema t st.2.2)
    hloop h₁ fun values hmem ⟨next, pks, s⟩ ⟨next', pks', s'⟩ hs hstep ↦ ?_
  simp only [insertStep] at hstep
  split at hstep
  · simp only [Except.bind_eq_ok] at hstep
    obtain ⟨-, -, s₁, hwrite, hstep⟩ := hstep
    obtain ⟨-, -, rfl⟩ : _ ∧ _ ∧ s₁ = s' := by simpa [pure, Except.pure] using hstep
    exact hs.tail (writeRowIn_step hd (hint next) (hitems values hmem) hwrite)
  · simp only [Except.bind_eq_ok] at hstep
    obtain ⟨pk, hpk, s₁, hwrite, hstep⟩ := hstep
    rw [Except.ofOption_eq_ok, explicitPk, nonNull_eq_some] at hpk
    obtain ⟨-, -, rfl⟩ : _ ∧ _ ∧ s₁ = s' := by simpa [pure, Except.pure] using hstep
    exact noteAndWrite_steps hd (hitems values hmem _ pk hpk.1) (hitems values hmem) hs hwrite

theorem insertWithPkBulkIn_steps {items : List (PropValue × Properties)} {onConflict : OnConflict}
    (hd : schema.Defaults V) (hitems : ∀ e ∈ items, V e.1 ∧ AllOf V e.2)
    (h : t.insertWithPkBulkIn g schema items onConflict = .ok t') :
    RowSteps g V schema t t' := by
  rw [insertWithPkBulkIn, Except.bind_eq_ok] at h
  obtain ⟨-, -, h⟩ := h
  exact Except.foldlM_invariant (RowSteps g V schema t) h .refl
    fun e he s s' hs hstep ↦ noteAndWrite_steps hd (hitems e he).1 (hitems e he).2 hs hstep

theorem updateIn_steps {q : Query} {sets : List (String × PropValue)} {n : ℕ}
    (hsets : ∀ e ∈ sets, V e.2) (h : t.updateIn g schema q sets = .ok (n, t')) :
    RowSteps g V schema t t' := by
  rw [updateIn] at h
  split at h
  · simp [throw, throwThe, MonadExceptOf.throw] at h
  simp only [Except.bind_eq_ok] at h
  obtain ⟨rows, -, hloop⟩ := h
  refine Except.foldlM_invariant (fun st ↦ RowSteps g V schema t st.2) hloop
    .refl fun row _ ⟨n, s⟩ ⟨n', s'⟩ hs hstep ↦ ?_
  simp only [Except.bind_eq_ok] at hstep
  obtain ⟨⟨b, s₁⟩, hupdate, hstep⟩ := hstep
  obtain ⟨-, rfl⟩ : _ ∧ s₁ = s' := by simpa [pure, Except.pure] using hstep
  exact updateRowIn_steps (fun _ ↦ allOf_applySets hsets) hs hupdate

theorem deleteIn_steps {q : Query} {n : ℕ} (h : t.deleteIn g schema q = .ok (n, t')) :
    RowSteps g V schema t t' := by
  rw [deleteIn, Except.bind_eq_ok] at h
  obtain ⟨rows, -, hloop⟩ := h
  refine Except.foldlM_invariant (fun st ↦ RowSteps g V schema t st.2) hloop
    .refl fun row _ ⟨n, s⟩ ⟨n', s'⟩ hs hstep ↦ ?_
  simp only [Except.bind_eq_ok] at hstep
  obtain ⟨⟨b, s₁⟩, hdelete, hstep⟩ := hstep
  obtain ⟨-, rfl⟩ : _ ∧ s₁ = s' := by simpa [pure, Except.pure] using hstep
  exact deleteRowIn_steps hs hdelete

/-- **A row operation is a sequence of row changes.** -/
theorem applyRowOp_steps {op : RowOp} (hint : ∀ i, V (.int i)) (hd : schema.Defaults V)
    (hop : op.Gives V) (h : t.applyRowOp g schema op = .ok t') :
    RowSteps g V schema t t' := by
  cases op with
  | insertBulk items onConflict =>
    obtain ⟨⟨pks, s⟩, hs, rfl⟩ := Except.map_eq_ok.mp h
    exact insertBulkIn_steps hint hd hop hs
  | insertWithPkBulk items onConflict => exact insertWithPkBulkIn_steps hd hop h
  | update pk mutate =>
    obtain ⟨⟨b, s⟩, hs, rfl⟩ := Except.map_eq_ok.mp h
    exact updateRowIn_steps hop .refl hs
  | updateWhere q sets =>
    obtain ⟨⟨n, s⟩, hs, rfl⟩ := Except.map_eq_ok.mp h
    exact updateIn_steps hop hs
  | delete pk =>
    obtain ⟨⟨b, s⟩, hs, rfl⟩ := Except.map_eq_ok.mp h
    exact deleteRowIn_steps .refl hs
  | deleteWhere q =>
    obtain ⟨⟨n, s⟩, hs, rfl⟩ := Except.map_eq_ok.mp h
    exact deleteIn_steps hs

end TableStore
