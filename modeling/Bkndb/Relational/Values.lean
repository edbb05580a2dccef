import Bkndb.Relational.Run

/-!
# Values are carried along

Whatever the values given to a database have in common, the values stored in it have too: no write
path makes up a value of its own, apart from the integers of an auto-increment key.

It is used with `V` saying that lengths fit the fields they are written to. Values of an index are
values of rows, so nothing has to be said about them separately.
-/

open PropValue

variable {V : PropValue → Prop}

/-! ## Schemas -/

namespace TableSchemaBuilder

theorem build_columns {b : TableSchemaBuilder} {schema : TableSchema} (h : b.build = .ok schema) :
    ∃ pk, schema.columns = normalizePk pk b.columns := by
  rw [build] at h
  cases hid : checkIdentifier "table" b.name with
  | error e => simp [hid, throw, throwThe, MonadExceptOf.throw] at h
  | ok u =>
    rw [hid] at h
    simp only [Except.bind_eq_ok, Except.ofOption_eq_ok] at h
    obtain ⟨⟨⟩, -, seen, -, pk, -, pkCol, -, ⟨⟩, -, ⟨⟩, -, indexed, -, h⟩ := h
    obtain rfl := Except.ok.inj h
    exact ⟨pk, rfl⟩

theorem default_of_mem_normalizePk {pk : String} {d : PropValue} {columns : List ColumnSchema}
    {c : ColumnSchema} (hc : c ∈ normalizePk pk columns) (hd : c.default = some d) :
    ∃ c ∈ columns, c.default = some d := by
  induction columns with
  | nil => simp [normalizePk] at hc
  | cons a l ih =>
    rw [normalizePk] at hc
    split at hc
    · rcases List.mem_cons.mp hc with rfl | hc
      · simp at hd
      · exact ⟨c, List.mem_cons_of_mem _ hc, hd⟩
    · rcases List.mem_cons.mp hc with rfl | hc
      · exact ⟨c, List.mem_cons_self, hd⟩
      · obtain ⟨c', hc', hd'⟩ := ih hc
        exact ⟨c', List.mem_cons_of_mem _ hc', hd'⟩

theorem defaults_of_build {b : TableSchemaBuilder} {schema : TableSchema}
    (h : b.build = .ok schema) (hb : ∀ c ∈ b.columns, ∀ d, c.default = some d → V d) :
    schema.Defaults V := by
  obtain ⟨pk, hcolumns⟩ := build_columns h
  intro c hc d hd
  rw [hcolumns] at hc
  obtain ⟨c', hc', hd'⟩ := default_of_mem_normalizePk hc hd
  exact hb c' hc' d hd'

end TableSchemaBuilder

/-! ## Tables -/

namespace TableStore

/-- The stored rows and the defaults of the registered schema satisfy `V`. -/
structure HoldsOf (V : PropValue → Prop) (t : TableStore) : Prop where
  rows : ∀ k values, t.rows.get? k = some values → StoredOf V k values
  defaults : ∀ schema, t.schema = some schema → schema.Defaults V

variable {t t' : TableStore} {schema : TableSchema}

theorem holdsOf_fresh : ({} : TableStore).HoldsOf V := ⟨by simp, by simp⟩

theorem HoldsOf.congr (hi : t.HoldsOf V) (hrows : t'.rows = t.rows)
    (hschema : t'.schema = t.schema) : t'.HoldsOf V :=
  ⟨by rw [hrows]; exact hi.rows, by rw [hschema]; exact hi.defaults⟩

theorem allOf_migrateValues {old new : TableSchema} (hd : new.Defaults V) {values : Properties}
    (h : AllOf V values) : AllOf V (migrateValues old new values) := by
  rw [migrateValues]
  refine List.foldlRecOn (motive := AllOf V) new.columns _ (h.filter _) fun stored hs c hc ↦ ?_
  rw [fillDefault]
  split
  · rename_i d hdef
    split
    · exact hs.insert c.name (hd c hc d hdef)
    · exact hs
  · exact hs

theorem HoldsOf.ensureTableIn (hi : t.HoldsOf V) (hd : schema.Defaults V)
    (h : t.ensureTableIn schema = .ok t') : t'.HoldsOf V := by
  rcases ensureTableIn_eq_ok h with ⟨-, h⟩ | ⟨old, -, -, rfl⟩ | ⟨old, s, -, hmig, rfl⟩
  · rw [adoptIn_frame h]
    exact ⟨hi.rows, fun s hs ↦ Option.some_inj.mp hs ▸ hd⟩
  · exact hi
  · obtain ⟨scanned, hm⟩ := migrateIn_migrated hmig
    obtain ⟨hrows, -, hschema⟩ := s.retainValidIn_same (some schema)
    refine HoldsOf.congr ⟨fun k values hget ↦ ?_, fun s' hs' ↦ ?_⟩ hrows hschema
    · rw [hm.rows] at hget
      obtain ⟨values₀, hget₀, rfl⟩ := Option.map_eq_some_iff.mp hget
      obtain ⟨hkey, hvalues⟩ := hi.rows k values₀ hget₀
      exact ⟨hkey, allOf_migrateValues hd hvalues⟩
    · rw [hm.schema, Option.some_inj] at hs'
      exact hs' ▸ hd

variable [Unicode] {D : Type} [LinearOrder D] {g : Ann.Geometry D}

theorem RowStep.holdsOf (h : RowStep g V schema t t') (hi : t.HoldsOf V) : t'.HoldsOf V := by
  cases h with
  | @row pk k old new t t' hchange hnew =>
    refine ⟨fun k' values hget ↦ ?_, by rw [hchange.frame.1]; exact hi.defaults⟩
    rw [hchange.get?_rows] at hget
    split at hget
    · rename_i hk
      subst hk
      exact hnew (fun o ho ↦ hi.rows k' o (hchange.old_eq.trans ho)) values hget
    · exact hi.rows k' values hget
  | counter n => exact hi.congr rfl rfl

theorem holdsOf_of_rowSteps {s : TableStore} (hi : s.HoldsOf V) (h : RowSteps g V schema s t) :
    t.HoldsOf V := by
  induction h with
  | refl => exact hi
  | tail _ hstep ih => exact hstep.holdsOf ih

omit [Unicode] in
theorem resolveRef_eq_ok {ref : TableRef} (h : t.resolveRef ref = .ok schema) :
    t.schema = some schema ∨ (t.schema = none ∧ schema = ref.schema) := by
  rw [resolveRef] at h
  split at h
  · rename_i current hcurrent
    split at h
    · exact .inl (by rw [hcurrent, Except.ok.inj h])
    · simp at h
  · rename_i hnone
    split at h
    · simp at h
    · exact .inr ⟨hnone, (Except.ok.inj h).symm⟩

theorem rowSteps_of_applyOp {ref : TableRef} {op : RowOp} (hint : ∀ i, V (.int i))
    (hop : (DbOp.rows ref op).Gives V) (hi : t.HoldsOf V) (h : t.applyOp g (.rows ref op) = .ok t') :
    ∃ schema, (t.schema = some schema ∨ (t.schema = none ∧ schema = ref.schema)) ∧
      RowSteps g V schema t t' := by
  simp only [TableStore.applyOp, Except.bind_eq_ok] at h
  obtain ⟨-, -, schema, hresolve, h⟩ := h
  have hschema := resolveRef_eq_ok hresolve
  refine ⟨schema, hschema, applyRowOp_steps hint ?_ hop.2 h⟩
  rcases hschema with hs | ⟨-, rfl⟩
  · exact hi.defaults schema hs
  · exact hop.1

/-- **An operation that is given values satisfying `V` leaves only such values.** -/
theorem HoldsOf.applyOp (hint : ∀ i, V (.int i)) (hi : t.HoldsOf V) {op : DbOp} (hop : op.Gives V)
    (h : t.applyOp g op = .ok t') : t'.HoldsOf V := by
  cases op with
  | rows ref op =>
    obtain ⟨schema, -, hsteps⟩ := rowSteps_of_applyOp hint hop hi h
    exact holdsOf_of_rowSteps hi hsteps
  | createTable schema =>
    obtain ⟨⟨b, s⟩, hs, rfl⟩ := Except.map_eq_ok.mp h
    rcases createTableIn_eq_ok hs with ⟨-, hadopt⟩ | ⟨-, rfl⟩
    · rw [adoptIn_frame hadopt]
      exact ⟨hi.rows, fun s hs ↦ Option.some_inj.mp hs ▸ hop⟩
    · exact hi
  | ensureTable schema => exact hi.ensureTableIn hop h
  | dropTable name =>
    obtain ⟨⟨b, s⟩, hs, rfl⟩ := Except.map_eq_ok.mp h
    rcases dropTableIn_eq_ok hs with ⟨-, rfl⟩ | ⟨schema, -, rfl⟩
    · exact hi
    · obtain ⟨hrows, -, hschema⟩ := retainValidIn_same ({ t with
        rows := ∅
        index := fun c ↦ if c ∈ schema.indexedColumns then ∅ else t.index c
        counter := none
        schema := none } : TableStore) none
      exact ⟨by rw [hrows]; simp, by rw [hschema]; simp⟩
  | createIndex table column =>
    obtain ⟨old, schema, hold, hbuild, h⟩ := createIndex_eq_ok h
    refine hi.ensureTableIn (TableSchemaBuilder.defaults_of_build hbuild ?_) h
    have hcolumns : (old.toBuilder.index column).columns = old.columns := by
      rw [TableSchemaBuilder.index]
      split <;> rfl
    rw [hcolumns]
    exact hi.defaults old hold
  | dropIndex table column =>
    obtain ⟨old, schema, hold, hbuild, h⟩ := dropIndex_eq_ok h
    refine hi.ensureTableIn (TableSchemaBuilder.defaults_of_build hbuild fun c hc d hd ↦ ?_) h
    obtain ⟨c', hc', rfl⟩ := List.mem_map.mp hc
    refine hi.defaults old hold c' hc' d ?_
    split at hd <;> exact hd
  | createFulltextIndex table column =>
    obtain ⟨⟨b, s⟩, hs, rfl⟩ := Except.map_eq_ok.mp h
    have hf := createFulltextIndexIn_fulltextOnly hs
    exact hi.congr (by rw [hf]) (by rw [hf])
  | dropFulltextIndex table column =>
    obtain rfl := Except.ok.inj h
    have hf := t.dropFulltextIndexIn_fulltextOnly column
    exact hi.congr (by rw [hf]) (by rw [hf])
  | createVectorIndex table column options =>
    obtain ⟨⟨b, s⟩, hs, rfl⟩ := Except.map_eq_ok.mp h
    have hv := createVectorIndexIn_vectorsOnly hs
    exact hi.congr (by rw [hv]) (by rw [hv])
  | dropVectorIndex table column =>
    obtain rfl := Except.ok.inj h
    have hv := t.dropVectorIndexIn_vectorsOnly column
    exact hi.congr (by rw [hv]) (by rw [hv])

end TableStore
