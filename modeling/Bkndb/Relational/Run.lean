import Bkndb.Relational.Migrate

/-!
# Runs of a database

The committed states of a database, from an empty one. Each state remembers what was stored for a
table when it was registered, which is what the promises about it depend on.

Physical table names are derived from the table's name with two underscores, and only the builder
refuses names that hold two in a row themselves. The runs below keep to names it accepts, so that
different tables have different physical tables.

## Runs and conditions

`Reachable P` are the committed states of runs whose operations satisfy `P`; a transaction that
fails leaves the state before it. `Reachable.induction` is the rule by which an invariant of single
tables is carried to runs: only the table that an operation names has to be looked at.

## Rules for operations

The rest of this module says what each operation of the catalog did when it succeeded, as a
disjunction of the ways through it, and which parts of a table it leaves alone. Later modules use
these rules and do not unfold the operations.
-/

/-- A database, and for each registered table what was stored for it just before. -/
structure RelRun where
  store : RelStore
  adopted : String → Option TableStore

namespace RelRun

/-- What a table was registered over, after an operation. -/
def adoptedAfter (t t' : TableStore) (adopted : Option TableStore) : Option TableStore :=
  match t.schema, t'.schema with
  | none, some _ => some t
  | _, none => none
  | some _, some _ => adopted

variable [Unicode] {D : Type} [LinearOrder D] (g : Ann.Geometry D)

/-- One operation. -/
def apply (r : RelRun) (op : DbOp) : Except BknError RelRun := do
  let store ← r.store.apply g op
  return ⟨store, Function.update r.adopted op.table
    (adoptedAfter (r.store op.table) (store op.table) (r.adopted op.table))⟩

/-- Nothing stored. -/
def fresh : RelRun := ⟨RelStore.fresh, fun _ ↦ none⟩

/-- The committed states of the runs whose operations satisfy `P`. -/
inductive Reachable (P : DbOp → Prop) : RelRun → Prop
  | fresh : Reachable P fresh
  | commit {r r' : RelRun} {ops : List DbOp} : Reachable P r →
    (∀ op ∈ ops, P op ∧ checkIdentifier "table" op.table = .ok ()) →
    ops.foldlM (apply g) r = .ok r' → Reachable P r'

/-- Commit transactions one after the other. -/
def runTxs (txs : List (List DbOp)) : Except BknError RelRun :=
  txs.foldlM (fun r ops ↦ ops.foldlM (apply g) r) fresh

variable {g}

theorem apply_eq_ok {r r' : RelRun} {op : DbOp} (h : r.apply g op = .ok r') :
    ∃ t', (r.store op.table).applyOp g op = .ok t' ∧
      r'.store = Function.update r.store op.table t' ∧
      r'.adopted = Function.update r.adopted op.table
        (adoptedAfter (r.store op.table) t' (r.adopted op.table)) := by
  simp only [apply, RelStore.apply, Except.bind_eq_ok] at h
  obtain ⟨store, ⟨t', ht', hstore⟩, h⟩ := h
  obtain rfl := Except.ok.inj hstore
  obtain rfl := Except.ok.inj h
  exact ⟨t', ht', rfl, by simp⟩

theorem exists_apply {r : RelRun} {op : DbOp} {t' : TableStore}
    (h : (r.store op.table).applyOp g op = .ok t') :
    ∃ r', r.apply g op = .ok r' ∧ r'.store op.table = t' := by
  rw [apply, RelStore.apply, h]
  exact ⟨_, rfl, Function.update_self ..⟩

/-- **What every operation keeps for its table holds of every table of every reachable state.** -/
theorem Reachable.induction {P : DbOp → Prop} {r : RelRun}
    (Q : TableStore → Option TableStore → Prop) (h : Reachable g P r) (h0 : Q {} none)
    (hstep : ∀ t a op t', P op → Q t a → t.applyOp g op = .ok t' → Q t' (adoptedAfter t t' a)) :
    ∀ n, Q (r.store n) (r.adopted n) := by
  induction h with
  | fresh => exact fun n ↦ h0
  | @commit r r' ops _ hops hrun ih =>
    refine Except.foldlM_invariant (fun r ↦ ∀ n, Q (r.store n) (r.adopted n)) hrun ih
      fun op hop s s' hs hstep' n ↦ ?_
    obtain ⟨t', ht', hstore, hadopted⟩ := apply_eq_ok hstep'
    rw [hstore, hadopted]
    by_cases hn : n = op.table
    · subst hn
      rw [Function.update_self, Function.update_self]
      exact hstep _ _ op t' (hops op hop).1 (hs _) ht'
    · rw [Function.update_of_ne hn, Function.update_of_ne hn]
      exact hs n

theorem reachable_of_runTxs {P : DbOp → Prop} {txs : List (List DbOp)} {r : RelRun}
    (hops : ∀ ops ∈ txs, ∀ op ∈ ops, P op ∧ checkIdentifier "table" op.table = .ok ())
    (h : runTxs g txs = .ok r) : Reachable g P r :=
  Except.foldlM_invariant (Reachable g P) h .fresh fun ops hmem _ _ hs hstep ↦
    hs.commit (hops ops hmem) hstep

/-- A computed run that ends in a state satisfying `p`. -/
theorem exists_reachable {P : DbOp → Prop} {txs : List (List DbOp)} {p : RelRun → Bool}
    (hops : ∀ ops ∈ txs, ∀ op ∈ ops, P op ∧ checkIdentifier "table" op.table = .ok ())
    (h : (runTxs g txs).toOption.any p = true) : ∃ r, Reachable g P r ∧ p r = true := by
  cases hr : runTxs g txs with
  | error e => simp [hr, Except.toOption] at h
  | ok r => exact ⟨r, reachable_of_runTxs hops hr, by simpa [hr, Except.toOption] using h⟩

end RelRun

/-! ## What an operation does to a registered table -/

namespace TableStore

variable {t t' : TableStore} {schema : TableSchema}

theorem TableInv.congr (hi : t.TableInv schema) (hrows : t'.rows = t.rows)
    (hindex : t'.index = t.index) : t'.TableInv schema := by
  have hrow : ∀ row, t'.HasRow schema row ↔ t.HasRow schema row := fun row ↦ by
    rw [HasRow, HasRow, hrows]
  refine ⟨hi.wf, fun k values hget ↦ ?_, fun row h ↦ hi.rowsValid row ((hrow row).mp h),
    fun c hc ↦ ?_, fun c hc ↦ by rw [hindex, hi.indexEmpty c hc], fun c hc hu row row' v h h' ↦
      hi.unique c hc hu row row' v ((hrow row).mp h) ((hrow row').mp h')⟩
  · rw [hrows] at hget
    obtain ⟨pk, hk, h⟩ := hi.rowsKeyed k values hget
    exact ⟨pk, hk, (hrow _).mpr h⟩
  · have := hi.indexExact c hc
    rw [indexExact_iff] at this ⊢
    simp only [hrow, hindex]
    exact this

theorem adoptIn_of_empty (hrows : t.rows = ∅) (h : t.adoptIn schema = .ok t') :
    t' = { t with schema := some schema } ∧ ∃ kind, schema.pkKind = some kind := by
  simp only [adoptIn, Except.bind_eq_ok] at h
  obtain ⟨rows, hscan, h⟩ := h
  simp only [scanAllIn, Except.bind_eq_ok] at hscan
  obtain ⟨pk, hpk, hscan⟩ := hscan
  rw [hrows] at hscan
  obtain rfl : [] = rows := Except.ok.inj hscan
  refine ⟨(Except.ok.inj h).symm, pk.kind, ?_⟩
  rw [TableSchema.primaryKeyColumn, Except.ofOption_eq_ok] at hpk
  rw [TableSchema.pkKind, hpk, Option.map_some]

theorem adoptIn_frame (h : t.adoptIn schema = .ok t') :
    t' = { t with schema := some schema, index := t'.index } := by
  simp only [adoptIn, Except.bind_eq_ok] at h
  obtain ⟨rows, -, h⟩ := h
  split at h
  · obtain rfl := Except.ok.inj h
    rfl
  · simp only [Except.bind_eq_ok] at h
    obtain ⟨s, hs, h⟩ := h
    obtain rfl := Except.ok.inj h
    rw [(foldlM_rebuildIndex hs).1]

theorem adoptIn_schema (h : t.adoptIn schema = .ok t') : t'.schema = some schema := by
  rw [adoptIn_frame h]

/-- Everything but the full-text state is as before. -/
def FulltextOnly (t t' : TableStore) : Prop :=
  t' = { t with
    ftsColumns := t'.ftsColumns
    ftsStats := t'.ftsStats
    postings := t'.postings
    docs := t'.docs }

/-- Everything but the vector indexes is as before. -/
def VectorsOnly (t t' : TableStore) : Prop :=
  t' = { t with annColumns := t'.annColumns, ann := t'.ann }

theorem ftsRetainValid_fulltextOnly (t : TableStore) (schema : Option TableSchema) :
    FulltextOnly t (t.ftsRetainValid schema) := by
  rw [ftsRetainValid]
  dsimp only
  split
  · rfl
  · have hloop : ∀ columns : List String, FulltextOnly t (columns.foldl dropIndexData t) := by
      intro columns
      refine List.foldlRecOn (motive := FulltextOnly t) _ _ rfl fun s hs c _ ↦ ?_
      rw [FulltextOnly, dropIndexData]
      conv_lhs => rw [hs]
    rw [FulltextOnly]
    conv_lhs => rw [hloop]

theorem annRetainValid_vectorsOnly (t : TableStore) (schema : Option TableSchema) :
    VectorsOnly t (t.annRetainValid schema) := by
  rw [annRetainValid]
  split <;> rfl

theorem retainValidIn_same (t : TableStore) (schema : Option TableSchema) :
    (t.retainValidIn schema).rows = t.rows ∧ (t.retainValidIn schema).index = t.index ∧
      (t.retainValidIn schema).schema = t.schema := by
  have hfts := t.ftsRetainValid_fulltextOnly schema
  have hann := (t.ftsRetainValid schema).annRetainValid_vectorsOnly schema
  rw [retainValidIn, hann, hfts]
  exact ⟨rfl, rfl, rfl⟩

/-! ## Catalog operations -/

/-- What `ensure_table` did: registered, left alone, or migrated. -/
theorem ensureTableIn_eq_ok (h : t.ensureTableIn schema = .ok t') :
    (t.schema = none ∧ t.adoptIn schema = .ok t') ∨
      (∃ old, t.schema = some old ∧ old.eqv schema = true ∧ t' = t) ∨
      ∃ old s, t.schema = some old ∧ t.migrateIn old schema = .ok s ∧
        t' = s.retainValidIn (some schema) := by
  simp only [ensureTableIn, Except.bind_eq_ok] at h
  obtain ⟨-, -, h⟩ := h
  cases hs : t.schema with
  | none =>
    rw [hs] at h
    exact .inl ⟨rfl, h⟩
  | some old =>
    rw [hs] at h
    dsimp only at h
    split at h
    · rename_i heqv
      exact .inr (.inl ⟨old, rfl, heqv, (Except.ok.inj h).symm⟩)
    · simp only [Except.bind_eq_ok] at h
      obtain ⟨s, hmig, h⟩ := h
      exact .inr (.inr ⟨old, s, rfl, hmig, (Except.ok.inj h).symm⟩)

/-- What `create_table` did: registered, or left alone. -/
theorem createTableIn_eq_ok {b : Bool} (h : t.createTableIn schema = .ok (b, t')) :
    (t.schema = none ∧ t.adoptIn schema = .ok t') ∨ ((∃ old, t.schema = some old) ∧ t' = t) := by
  simp only [createTableIn, Except.bind_eq_ok] at h
  obtain ⟨-, -, h⟩ := h
  cases hs : t.schema with
  | none =>
    rw [hs] at h
    simp only [Except.bind_eq_ok] at h
    obtain ⟨s, hadopt, h⟩ := h
    obtain rfl : s = t' := congrArg Prod.snd (Except.ok.inj h)
    exact .inl ⟨rfl, hadopt⟩
  | some old =>
    rw [hs] at h
    dsimp only at h
    split at h
    · exact .inr ⟨⟨old, rfl⟩, (congrArg Prod.snd (Except.ok.inj h)).symm⟩
    · simp [throw, throwThe, MonadExceptOf.throw] at h

/-- What `drop_table` did: nothing, or emptied the table. -/
theorem dropTableIn_eq_ok {name : String} {b : Bool} (h : t.dropTableIn name = .ok (b, t')) :
    (t.schema = none ∧ t' = t) ∨ ∃ schema, t.schema = some schema ∧
      t' = ({ t with
        rows := ∅
        index := fun c ↦ if c ∈ schema.indexedColumns then ∅ else t.index c
        counter := none
        schema := none } : TableStore).retainValidIn none := by
  simp only [dropTableIn, Except.bind_eq_ok] at h
  obtain ⟨-, -, h⟩ := h
  cases hs : t.schema with
  | none =>
    rw [hs] at h
    exact .inl ⟨rfl, (congrArg Prod.snd (Except.ok.inj h)).symm⟩
  | some schema =>
    rw [hs] at h
    have h' := congrArg Prod.snd (Except.ok.inj h)
    rw [foldl_clearIndex] at h'
    exact .inr ⟨schema, rfl, h'.symm⟩

theorem createIndex_eq_ok {table column : String} (h : t.createIndex table column = .ok t') :
    ∃ old schema, t.schema = some old ∧ (old.toBuilder.index column).build = .ok schema ∧
      t.ensureTableIn schema = .ok t' := by
  simp only [createIndex, Except.bind_eq_ok, Except.ofOption_eq_ok] at h
  obtain ⟨-, -, old, hold, schema, hbuild, h⟩ := h
  exact ⟨old, schema, hold, hbuild, h⟩

theorem dropIndex_eq_ok {table column : String} (h : t.dropIndex table column = .ok t') :
    ∃ old schema, t.schema = some old ∧ (old.toBuilder.dropIndex column).build = .ok schema ∧
      t.ensureTableIn schema = .ok t' := by
  simp only [dropIndex, Except.bind_eq_ok, Except.ofOption_eq_ok] at h
  obtain ⟨-, -, old, hold, schema, hbuild, h⟩ := h
  exact ⟨old, schema, hold, hbuild, h⟩

theorem dropVectorIndexIn_vectorsOnly (t : TableStore) (column : String) :
    VectorsOnly t (t.dropVectorIndexIn column).2 := by
  rw [dropVectorIndexIn]
  split <;> rfl

theorem dropFulltextIndexIn_fulltextOnly (t : TableStore) (column : String) :
    FulltextOnly t (t.dropFulltextIndexIn column).2 := by
  rw [dropFulltextIndexIn]
  split <;> rfl

variable [Unicode] {D : Type} [LinearOrder D] {g : Ann.Geometry D}

theorem createFulltextIndexIn_fulltextOnly {table column : String} {b : Bool}
    (h : t.createFulltextIndexIn table column = .ok (b, t')) : FulltextOnly t t' := by
  simp only [createFulltextIndexIn, Except.bind_eq_ok, Except.ofOption_eq_ok] at h
  obtain ⟨-, -, schema, -, h⟩ := h
  cases hc : schema.column column with
  | none => simp [hc, throw, throwThe, MonadExceptOf.throw] at h
  | some c =>
    rw [hc] at h
    simp only [Except.bind_eq_ok] at h
    obtain ⟨-, -, h⟩ := h
    split at h
    · obtain rfl : t = t' := congrArg Prod.snd (Except.ok.inj h)
      rfl
    · simp only [Except.bind_eq_ok] at h
      obtain ⟨rows, -, s, hloop, h⟩ := h
      obtain rfl : s = t' := congrArg Prod.snd (Except.ok.inj h)
      refine Except.foldlM_invariant (FulltextOnly t) hloop rfl fun row _ s s' hs hstep ↦ ?_
      rw [indexRow] at hstep
      split at hstep
      · simp only [Except.bind_eq_ok] at hstep
        obtain ⟨k, -, hstep⟩ := hstep
        simp only [indexText, Except.bind_eq_ok] at hstep
        obtain ⟨tf, -, docs, -, terms, -, hstep⟩ := hstep
        obtain rfl := Except.ok.inj hstep
        rw [FulltextOnly]
        conv_lhs => rw [hs]
      · obtain rfl := Except.ok.inj hstep
        exact hs

omit [Unicode] in
theorem createVectorIndexIn_vectorsOnly {table column : String} {options : VectorIndexOptions}
    {b : Bool} (h : t.createVectorIndexIn g table column options = .ok (b, t')) :
    VectorsOnly t t' := by
  simp only [createVectorIndexIn, Except.bind_eq_ok] at h
  obtain ⟨-, -, schema, -, -, -, -, -, -, -, h⟩ := h
  split at h
  · obtain rfl : t = t' := congrArg Prod.snd (Except.ok.inj h)
    rfl
  · simp only [Except.bind_eq_ok] at h
    obtain ⟨rows, -, i, -, h⟩ := h
    obtain rfl := congrArg Prod.snd (Except.ok.inj h)
    rfl

variable {V : PropValue → Prop}

theorem tableInv_of_rowSteps {s : TableStore} (hi : s.TableInv schema)
    (h : RowSteps g V schema s t) : t.TableInv schema := by
  induction h with
  | refl => exact hi
  | tail _ hstep ih => exact hstep.tableInv ih

theorem schema_of_rowSteps {s : TableStore} (h : RowSteps g V schema s t) :
    t.schema = s.schema := by
  induction h with
  | refl => rfl
  | tail _ hstep ih =>
    cases hstep with
    | row hchange _ => rw [hchange.frame.1, ih]
    | counter n => exact ih

end TableStore
