import Bkndb.Relational.Run

/-!
# The relational store invariant

Along every run, a registered table keeps its invariant, provided it was registered over empty row
and index tables with a schema that declares the columns it indexes. Registration looks at the rows
alone: over an empty row table it does not rebuild the indexes, so entries left there by handles
that did not agree on the indexed columns stay.

## Main results

* `Registered.applyOp`: every operation keeps the invariant of a registered table.
* `store_invariant`: so it holds in every committed state, of every table that was registered over
  nothing.
* `stale_index_after_registration`: without that, an entry of a row that is gone may stay in an
  index.
-/

open PropValue

/-- A schema value of the program: converted from a static one, or accepted by the builder. -/
def TableSchema.Constructible (schema : TableSchema) : Prop :=
  (∃ s, schema = ofRelSchema s) ∨ ∃ b : TableSchemaBuilder, b.build = .ok schema

/-- The schemas an operation registers are values of the program. -/
def DbOp.Constructible : DbOp → Prop
  | createTable schema | ensureTable schema => schema.Constructible
  | _ => True

/-- The schemas an operation registers declare the columns they index, as the builder checks. -/
def DbOp.Declares : DbOp → Prop
  | createTable schema | ensureTable schema =>
    ∀ c ∈ schema.indexedColumns, (schema.column c).isSome = true
  | _ => True

namespace TableStore

theorem uniqueIndexed_of_constructible {schema : TableSchema} (hc : schema.Constructible)
    {col : ColumnSchema} (hcol : col ∈ schema.columns) (hu : col.unique = true) :
    col.name ∈ schema.indexedColumns ∧ schema.column col.name = some col := by
  rcases hc with ⟨s, rfl⟩ | ⟨b, hb⟩
  · -- a static schema has none
    obtain ⟨c, -, rfl⟩ := List.mem_map.mp hcol
    simp at hu
  · exact (TableSchemaBuilder.build_wf hb).uniqueIndexed col hcol hu

theorem wf_of_constructible {schema : TableSchema} (hc : schema.Constructible)
    (hd : ∀ c ∈ schema.indexedColumns, (schema.column c).isSome = true)
    (hpk : ∃ kind, schema.pkKind = some kind) : schema.Wf :=
  ⟨hpk, fun c hc ↦ Option.isSome_iff_exists.mp (hd c hc),
    fun _ ↦ uniqueIndexed_of_constructible hc⟩

/-- What the state a table was registered over has to be: no rows and no index entries. -/
def Blank (t : TableStore) : Prop := t.rows = ∅ ∧ ∀ c, t.index c = ∅

/-- The invariant of a table, if it is registered and was registered over nothing. -/
def Registered (t : TableStore) (adopted : Option TableStore) : Prop :=
  ∀ schema t₀, t.schema = some schema → adopted = some t₀ → t₀.Blank → t.TableInv schema

variable {t t' : TableStore} {schema : TableSchema} {adopted : Option TableStore}

theorem Registered.adoptIn (hwf : (∃ kind, schema.pkKind = some kind) → schema.Wf)
    (hnone : t.schema = none) (h : t.adoptIn schema = .ok t') :
    t'.Registered (RelRun.adoptedAfter t t' adopted) := by
  intro schema' t₀ hs hadopt hblank
  rw [adoptIn_schema h, Option.some_inj] at hs
  subst hs
  rw [RelRun.adoptedAfter, hnone, adoptIn_schema h, Option.some_inj] at hadopt
  subst hadopt
  obtain ⟨rfl, hpk⟩ := adoptIn_of_empty hblank.1 h
  exact tableInv_of_empty (hwf hpk) hblank.1 hblank.2

theorem Registered.ensureTableIn (hi : t.Registered adopted)
    (hwf : (∃ kind, schema.pkKind = some kind) → schema.Wf)
    (h : t.ensureTableIn schema = .ok t') : t'.Registered (RelRun.adoptedAfter t t' adopted) := by
  rcases ensureTableIn_eq_ok h with ⟨hnone, h⟩ | ⟨old, hold, -, rfl⟩ | ⟨old, s, hold, hmig, rfl⟩
  · exact Registered.adoptIn hwf hnone h
  · intro schema' t₀ hs hadopt
    rw [RelRun.adoptedAfter, hold] at hadopt
    exact hi schema' t₀ hs hadopt
  · obtain ⟨hrows, hindex, hsame⟩ := s.retainValidIn_same (some schema)
    intro schema' t₀ hs hadopt hblank
    rw [RelRun.adoptedAfter, hold, hs] at hadopt
    have hinv := hi old t₀ hold hadopt hblank
    obtain ⟨scanned, hmigrated⟩ := migrateIn_migrated hmig
    rw [hsame, hmigrated.schema, Option.some_inj] at hs
    subst hs
    have hpk : ∃ kind, schema.pkKind = some kind := by
      rw [← hmigrated.pkKind]
      exact hinv.wf.pkDeclared
    exact (hmigrated.tableInv hinv (hwf hpk)).congr hrows hindex

theorem Registered.same (hi : t.Registered adopted) (hrows : t'.rows = t.rows)
    (hindex : t'.index = t.index) (hschema : t'.schema = t.schema) :
    t'.Registered (RelRun.adoptedAfter t t' adopted) := by
  intro schema t₀ hs hadopt hblank
  rw [hschema] at hs
  rw [RelRun.adoptedAfter, hschema, hs] at hadopt
  exact (hi schema t₀ hs hadopt hblank).congr hrows hindex

theorem Registered.fulltextOnly (hi : t.Registered adopted) (h : FulltextOnly t t') :
    t'.Registered (RelRun.adoptedAfter t t' adopted) :=
  hi.same (by rw [h]) (by rw [h]) (by rw [h])

theorem Registered.vectorsOnly (hi : t.Registered adopted) (h : VectorsOnly t t') :
    t'.Registered (RelRun.adoptedAfter t t' adopted) :=
  hi.same (by rw [h]) (by rw [h]) (by rw [h])

variable [Unicode] {D : Type} [LinearOrder D] {g : Ann.Geometry D}

/-- **Every operation keeps the invariant of a registered table.** -/
theorem Registered.applyOp (hi : t.Registered adopted) {op : DbOp} (hc : op.Constructible)
    (hd : op.Declares) (h : t.applyOp g op = .ok t') :
    t'.Registered (RelRun.adoptedAfter t t' adopted) := by
  cases op with
  | rows ref op =>
    simp only [TableStore.applyOp, Except.bind_eq_ok] at h
    obtain ⟨-, -, schema, hresolve, h⟩ := h
    have hsteps := applyRowOp_steps (fun _ ↦ trivial) (fun _ _ _ _ ↦ trivial) op.gives_true h
    have hsame := schema_of_rowSteps hsteps
    intro schema' t₀ hs hadopt hblank
    rw [hsame] at hs
    rw [RelRun.adoptedAfter, hsame, hs] at hadopt
    -- a handle on a registered table works with the registered schema
    have hcurrent : schema = schema' := by
      rw [resolveRef, hs] at hresolve
      dsimp only at hresolve
      split at hresolve
      · exact (Except.ok.inj hresolve).symm
      · simp at hresolve
    subst hcurrent
    exact tableInv_of_rowSteps (hi schema t₀ hs hadopt hblank) hsteps
  | createTable schema =>
    obtain ⟨⟨b, s⟩, hs, rfl⟩ := Except.map_eq_ok.mp h
    rcases createTableIn_eq_ok hs with ⟨hnone, hadopt⟩ | ⟨-, rfl⟩
    · exact Registered.adoptIn (wf_of_constructible hc hd) hnone hadopt
    · exact hi.same rfl rfl rfl
  | ensureTable schema => exact hi.ensureTableIn (wf_of_constructible hc hd) h
  | dropTable name =>
    obtain ⟨⟨b, s⟩, hs, rfl⟩ := Except.map_eq_ok.mp h
    rcases dropTableIn_eq_ok hs with ⟨-, rfl⟩ | ⟨schema, -, rfl⟩
    · exact hi.same rfl rfl rfl
    · intro schema' t₀ hs
      rw [(retainValidIn_same _ _).2.2] at hs
      simp at hs
  | createIndex table column =>
    obtain ⟨old, schema, -, hbuild, h⟩ := createIndex_eq_ok h
    exact hi.ensureTableIn (fun _ ↦ TableSchemaBuilder.build_wf hbuild) h
  | dropIndex table column =>
    obtain ⟨old, schema, -, hbuild, h⟩ := dropIndex_eq_ok h
    exact hi.ensureTableIn (fun _ ↦ TableSchemaBuilder.build_wf hbuild) h
  | createFulltextIndex table column =>
    obtain ⟨⟨b, s⟩, hs, rfl⟩ := Except.map_eq_ok.mp h
    exact hi.fulltextOnly (createFulltextIndexIn_fulltextOnly hs)
  | dropFulltextIndex table column =>
    obtain rfl := Except.ok.inj h
    exact hi.fulltextOnly (t.dropFulltextIndexIn_fulltextOnly column)
  | createVectorIndex table column options =>
    obtain ⟨⟨b, s⟩, hs, rfl⟩ := Except.map_eq_ok.mp h
    exact hi.vectorsOnly (createVectorIndexIn_vectorsOnly hs)
  | dropVectorIndex table column =>
    obtain rfl := Except.ok.inj h
    exact hi.vectorsOnly (t.dropVectorIndexIn_vectorsOnly column)

/-- What is promised of a registered table. -/
structure StoreInvariant (t : TableStore) (schema : TableSchema) : Prop where
  /-- Every stored row is valid and does not hold the key column. -/
  rowsValid : ∀ k values, t.rows.get? k = some values →
    ∃ pk, sortableKey pk = some k ∧ validateRow schema pk values = .ok () ∧
      values.get? schema.primaryKey = none
  unique : ∀ c ∈ schema.columns, c.unique = true → t.UniqueHolds schema c.name
  indexExact : ∀ c ∈ schema.indexedColumns, t.IndexExact schema c
  indexEmpty : ∀ c, c ∉ schema.indexedColumns → t.index c = ∅

/-- **The relational store invariant.** In every committed state it holds of every table that was
registered over empty row and index tables. -/
theorem store_invariant {r : RelRun}
    (h : RelRun.Reachable g (fun op ↦ op.Constructible ∧ op.Declares) r) {n : String}
    {schema : TableSchema} {t₀ : TableStore} (hschema : (r.store n).schema = some schema)
    (hadopted : r.adopted n = some t₀) (hblank : t₀.Blank) :
    (r.store n).StoreInvariant schema := by
  have hreg : (r.store n).Registered (r.adopted n) :=
    h.induction (fun t a ↦ t.Registered a) (fun schema t₀ hs ↦ by simp at hs)
      (fun t a op t' hop hi hstep ↦ hi.applyOp hop.1 hop.2 hstep) n
  have hinv := hreg schema t₀ hschema hadopted hblank
  refine ⟨fun k values hget ↦ ?_, hinv.unique, hinv.indexExact, hinv.indexEmpty⟩
  obtain ⟨pk, hk, hrow⟩ := hinv.rowsKeyed k values hget
  exact ⟨pk, hk, hinv.rowsValid _ hrow⟩

end TableStore

/-! ## Concrete runs

Two handles of different static schemas are enough to leave an entry behind: one that indexes a
column writes the row, and one that does not deletes it. -/

namespace RelRun

/-- One point. -/
def point : Properties := (OrdMap.insert ∅ "id" (.int 1)).insert "x" (.int 5)

/-- Its entry in the index of `x`. -/
def pointEntry : Bytes := Bytes.be 8 (flipSign 5).toNat ++ Bytes.be 8 (flipSign 1).toNat

/-- Insert through a schema that indexes `x`, delete through one that does not, then register. -/
def staleTxs : List (List DbOp) :=
  [[.rows ⟨pointsSchema ["x"], false⟩ (.insertBulk [point] .error)],
    [.rows ⟨pointsSchema [], false⟩ (.delete (.int 1))],
    [.createTable (pointsSchema ["x"])]]

/-- The checks made on the state a computed run ends in. -/
private def staleCheck (r : RelRun) : Bool :=
  (r.store "points").schema.any (·.indexedColumns == ["x"]) &&
    (r.adopted "points").any (·.rows.isEmpty) && (r.store "points").rows.isEmpty &&
    ((r.store "points").index "x").contains pointEntry

/-- The entry of the deleted row stays in the index of a table registered over no rows. -/
theorem stale_index_after_registration : ∃ (r : RelRun) (schema : TableSchema) (t₀ : TableStore),
    @Reachable Unicode.ascii ℕ _ Ann.flat DbOp.Constructible r ∧
      (r.store "points").schema = some schema ∧ r.adopted "points" = some t₀ ∧ t₀.rows = ∅ ∧
      ¬(r.store "points").StoreInvariant schema := by
  obtain ⟨r, hr, hp⟩ := @exists_reachable Unicode.ascii ℕ _ Ann.flat DbOp.Constructible staleTxs
    staleCheck (by
      intro ops hops op hop
      simp only [staleTxs, List.mem_cons, List.not_mem_nil, or_false] at hops
      rcases hops with rfl | rfl | rfl <;> rw [List.mem_singleton] at hop <;> subst hop
      · exact ⟨trivial, by decide +kernel⟩
      · exact ⟨trivial, by decide +kernel⟩
      · exact ⟨.inl ⟨_, rfl⟩, by decide +kernel⟩) (by decide +kernel)
  simp only [staleCheck, Bool.and_eq_true, Option.any_eq_true, beq_iff_eq] at hp
  obtain ⟨⟨⟨⟨schema, hschema, hindexed⟩, t₀, hadopted, ht₀⟩, hrows⟩, hkey⟩ := hp
  refine ⟨r, schema, t₀, hr, hschema, hadopted, OrdMap.isEmpty_iff.mp ht₀, fun h ↦ ?_⟩
  obtain ⟨u, hu⟩ := OrdMap.contains_iff.mp hkey
  obtain ⟨row, -, ⟨-, k, -, hget⟩, -⟩ := (h.indexExact "x" (by rw [hindexed]; simp)).sound _ hu
  rw [OrdMap.isEmpty_iff.mp hrows] at hget
  simp at hget

/-- A run that registers a table over nothing. -/
private def registered : RelRun where
  store := Function.update RelStore.fresh "points" { schema := some (pointsSchema ["x"]) }
  adopted := Function.update (fun _ ↦ none) "points" (some {})

private theorem apply_createTable : @apply Unicode.ascii ℕ _ Ann.flat fresh
    (.createTable (pointsSchema ["x"])) = .ok registered := rfl

/-- An insert into the registered table. -/
private def insertPoint : DbOp := .rows ⟨pointsSchema ["x"], true⟩ (.insertBulk [point] .error)

/-- The sortable key of that point. -/
def pointKey : Bytes := Bytes.be 8 (flipSign 1).toNat

/-- The table that indexes `x`, with that point. -/
def pointTable : TableStore where
  schema := some (pointsSchema ["x"])
  rows := OrdMap.insert ∅ pointKey (OrdMap.insert ∅ "x" (.int 5))
  index := Function.update (fun _ ↦ ∅) "x" (OrdMap.insert ∅ pointEntry ())

private theorem apply_insertPoint : (@apply Unicode.ascii ℕ _ Ann.flat registered insertPoint).map
    (fun r ↦ r.store "points") = .ok pointTable := rfl

/-- One row, its entry in the index of `x`, and no other table. -/
theorem exists_points : ∃ r : RelRun,
    @Reachable Unicode.ascii ℕ _ Ann.flat (fun op ↦ op.Constructible ∧ op.Declares) r ∧
      r.store = Function.update RelStore.fresh "points" pointTable ∧
      r.adopted "points" = some {} := by
  have hcreate : @Reachable Unicode.ascii ℕ _ Ann.flat
      (fun op ↦ op.Constructible ∧ op.Declares) registered :=
    @Reachable.commit Unicode.ascii ℕ _ Ann.flat _ _ _ [.createTable (pointsSchema ["x"])]
      (@Reachable.fresh Unicode.ascii ℕ _ Ann.flat _) (by
        intro op hop
        rw [List.mem_singleton] at hop
        subst hop
        exact ⟨⟨.inl ⟨_, rfl⟩, show ∀ c ∈ ["x"], _ from by decide +kernel⟩, by decide +kernel⟩)
      (by rw [List.foldlM_cons, apply_createTable]; rfl)
  cases hr : @apply Unicode.ascii ℕ _ Ann.flat registered insertPoint with
  | error e =>
    have hpoint := apply_insertPoint
    rw [hr] at hpoint
    cases hpoint
  | ok r =>
    have hpoint : r.store "points" = pointTable := by
      have hpoint := apply_insertPoint
      rw [hr] at hpoint
      exact Except.ok.inj hpoint
    have hreach := @Reachable.commit Unicode.ascii ℕ _ Ann.flat _ _ r [insertPoint] hcreate
      (by
        intro op hop
        rw [List.mem_singleton] at hop
        subst hop
        exact ⟨⟨trivial, trivial⟩, by decide +kernel⟩)
      (by rw [List.foldlM_cons, hr]; rfl)
    obtain ⟨t', -, hstore, hadopted⟩ := @apply_eq_ok Unicode.ascii ℕ _ Ann.flat _ _ _ hr
    have hname : insertPoint.table = "points" := rfl
    rw [hname] at hstore hadopted
    obtain rfl : t' = pointTable := by rw [← hpoint, hstore, Function.update_self]
    refine ⟨r, hreach, ?_, ?_⟩
    · rw [hstore, registered, Function.update_idem]
    · rw [hadopted, Function.update_self]
      rfl

theorem store_invariant_points : ∃ (r : RelRun) (schema : TableSchema),
    @Reachable Unicode.ascii ℕ _ Ann.flat (fun op ↦ op.Constructible ∧ op.Declares) r ∧
      (r.store "points").rows.size = 1 ∧ ((r.store "points").index "x").contains pointEntry = true ∧
      (r.store "points").StoreInvariant schema := by
  obtain ⟨r, hreach, hstore, hadopted⟩ := exists_points
  have hpoint : r.store "points" = pointTable := by rw [hstore, Function.update_self]
  refine ⟨r, pointsSchema ["x"], hreach, ?_, ?_,
    @TableStore.store_invariant Unicode.ascii ℕ _ Ann.flat r hreach "points" _ {}
      (by rw [hpoint]; rfl) hadopted ⟨rfl, fun _ ↦ rfl⟩⟩
  · rw [hpoint]
    rfl
  · rw [hpoint]
    decide +kernel

end RelRun
