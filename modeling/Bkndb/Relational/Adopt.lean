import Bkndb.Relational.FreshKeys

/-!
# Registering a table that has rows

A table may be used through a static schema before it is registered. Registration then adopts its
rows: the indexes are rebuilt and `UNIQUE` is enforced while they are, but the rows themselves are
not looked at, and neither is the key counter. What the schema promises of the rows and of the
counter therefore holds after registration exactly if it held before.

## Main results

* `indexesExact_of_adoptIn`: registration makes the indexes exact, whatever the rows hold.
* `guarantees_of_adoptIn`: the rows are as promised after it exactly if they were before.
* `establishes_iff`: when registering a table that was only used through a static schema leads to
  what the schema guarantees.

A row that an adopted schema would refuse stays where it is and is returned by reads. Several other
results therefore ask that the values in a column have its kind, and a table for which this fails
is a counterexample to their unconditional form.
-/

open PropValue Except

namespace TableStore

variable {t t' : TableStore} {schema : TableSchema}

/-! ## Rebuilding succeeds -/

/-- The keys noted during a rebuild are keys of the rows treated. -/
private def NotedFrom (schema : TableSchema) (column : String) (rows : List Row)
    (st : List Bytes × OrdMap Bytes Unit) : Prop :=
  ∀ x ∈ st.1, ∃ row ∈ rows, ∃ v, indexable row schema column = some v ∧ sortableKey v = some x

theorem rebuildIndex_isOk {rows : List Row} {column : String}
    (hkeys : ∀ row ∈ rows, Keyable schema column row)
    (hunique : (schema.column column).any (·.unique) = true →
      rows.Pairwise fun a b ↦ ¬SameKey schema column a b) (t : TableStore) :
    ∃ t', rebuildIndex schema rows t column = .ok t' := by
  suffices H : ∃ st, rows.foldlM
      (rebuildStep schema column ((schema.column column).any (·.unique))) ([], ∅) = .ok st ∧
        NotedFrom schema column rows st by
    obtain ⟨⟨seen, index⟩, hloop, -⟩ := H
    rw [rebuildIndex, hloop]
    exact ⟨_, rfl⟩
  refine foldlM_exists (NotedFrom schema column) (fun x hx ↦ by simp at hx)
    fun done row st hpre hseen ↦ ?_
  have hweaken : NotedFrom schema column (done ++ [row]) st := fun x hx ↦ by
    obtain ⟨r, hr, hrow⟩ := hseen x hx
    exact ⟨r, List.mem_append_left _ hr, hrow⟩
  rw [rebuildStep]
  cases hv : indexable row schema column with
  | none => exact ⟨st, rfl, hweaken⟩
  | some v =>
    obtain ⟨k, hk⟩ := hkeys row (hpre.subset (by simp)) v hv
    obtain ⟨a, b, ha, -⟩ := indexKey_eq_ok.mp hk
    dsimp only
    rw [noteSeen]
    split
    · rename_i hu
      have hnew : a ∉ st.1 := by
        intro hmem
        obtain ⟨r, hr, w, hw, hwa⟩ := hseen a hmem
        have hpair := (hunique hu).sublist hpre.sublist
        rw [List.pairwise_append] at hpair
        exact hpair.2.2 r hr row (by simp) ⟨w, v, a, hw, hv, hwa, ha⟩
      rw [sortableEncode_eq_ok.mpr ha, ok_bind, guardOr, if_pos hnew, ok_bind, hk]
      refine ⟨_, rfl, fun x hx ↦ ?_⟩
      rcases List.mem_cons.mp hx with rfl | hx
      · exact ⟨row, by simp, v, hv, ha⟩
      · exact hweaken x hx
    · rw [hk]
      exact ⟨_, rfl, hweaken⟩

/-- Something in an indexed column that a rebuild refuses: a value that is no key, or two rows with
one key where the column is `UNIQUE`. -/
def Clashes (t : TableStore) (schema : TableSchema) : Prop :=
  ∃ c ∈ schema.indexedColumns, (∃ row, t.HasRow schema row ∧ ¬Keyable schema c row) ∨
    ((schema.column c).any (·.unique) = true ∧ ∃ row row', t.HasRow schema row ∧
      t.HasRow schema row' ∧ row ≠ row' ∧ SameKey schema c row row')

/-! ## What registration does -/

/-- What registration read, and the indexes it left. -/
theorem adoptIn_eq_ok (hkeyed : t.RowsKeyed schema) (h : t.adoptIn schema = .ok t') :
    ∃ rows, t.RowsOfRange schema .unbounded .unbounded rows ∧ ∀ c ∈ schema.indexedColumns,
      (rows = [] ∧ t'.index c = t.index c) ∨ Rebuilt schema rows c (t'.index c) := by
  simp only [adoptIn, bind_eq_ok] at h
  obtain ⟨rows, hscan, h⟩ := h
  have hpk : ∃ kind, schema.pkKind = some kind := by
    obtain ⟨kind, hkind, -⟩ := scanAllIn_eq_ok hscan
    exact ⟨kind, hkind⟩
  obtain ⟨rows', hscan', hrange⟩ := scanAllIn_spec hkeyed hpk
  rw [hscan, ok.injEq] at hscan'
  subst hscan'
  refine ⟨rows, hrange, fun c hc ↦ ?_⟩
  split at h
  · rename_i hempty
    obtain rfl := ok.inj h
    exact .inl ⟨List.isEmpty_iff.mp hempty, rfl⟩
  · simp only [bind_eq_ok] at h
    obtain ⟨s, hs, h⟩ := h
    obtain rfl := ok.inj h
    exact .inr ((foldlM_rebuildIndex hs).2.1 c hc)

theorem not_clashes_of_adoptIn (hkeyed : t.RowsKeyed schema) (h : t.adoptIn schema = .ok t') :
    ¬t.Clashes schema := by
  obtain ⟨rows, hrange, hindex⟩ := adoptIn_eq_ok hkeyed h
  rintro ⟨c, hc, hclash⟩
  rcases hindex c hc with ⟨rfl, -⟩ | hrebuilt
  · -- there are no rows
    rcases hclash with ⟨row, hrow, -⟩ | ⟨-, row, -, hrow, -⟩
    · exact absurd ((hrange.mem_unbounded row).mpr hrow) List.not_mem_nil
    · exact absurd ((hrange.mem_unbounded row).mpr hrow) List.not_mem_nil
  · rcases hclash with ⟨row, hrow, hkey⟩ | ⟨hu, row, row', hrow, hrow', hne, hsame⟩
    · exact hkey (hrebuilt.encodable row ((hrange.mem_unbounded row).mpr hrow))
    · exact hne (hrebuilt.eq_of_sameKey hu ((hrange.mem_unbounded row).mpr hrow)
        ((hrange.mem_unbounded row').mpr hrow') hsame)

theorem adoptIn_isOk (hkeyed : t.RowsKeyed schema) (hpk : ∃ kind, schema.pkKind = some kind)
    (h : ¬t.Clashes schema) : ∃ t', t.adoptIn schema = .ok t' := by
  obtain ⟨rows, hscan, hrange⟩ := scanAllIn_spec hkeyed hpk
  rw [adoptIn, hscan, ok_bind]
  split
  · exact ⟨_, rfl⟩
  have hrebuild : ∀ c ∈ schema.indexedColumns, ∀ s, ∃ s', rebuildIndex schema rows s c = .ok s' := by
    refine fun c hc s ↦ rebuildIndex_isOk (fun row hrow ↦ ?_) (fun hu ↦ ?_) s
    · by_contra hkey
      exact h ⟨c, hc, .inl ⟨row, (hrange.mem_unbounded row).mp hrow, hkey⟩⟩
    · refine hrange.nodup.imp_of_mem fun {a b} ha hb hne hsame ↦ ?_
      exact h ⟨c, hc, .inr ⟨hu, a, b, (hrange.mem_unbounded a).mp ha,
        (hrange.mem_unbounded b).mp hb, hne, hsame⟩⟩
  obtain ⟨s, hs, -⟩ := foldlM_isOk (fun _ ↦ True) trivial fun c hc s _ ↦
    (hrebuild c hc s).imp fun s' hs' ↦ ⟨hs', trivial⟩
  exact ⟨{ s with schema := some schema }, by rw [hs]; rfl⟩

theorem raises_adoptIn (hkeyed : t.RowsKeyed schema) (hpk : ∃ kind, schema.pkKind = some kind) :
    Raises (fun e ↦ ¬Panics e) (t.adoptIn schema) := by
  obtain ⟨rows, hscan, -⟩ := scanAllIn_spec hkeyed hpk
  have hno : ∀ {s : TableSchema} {m : Message}, ¬Panics (.constraintViolation s.name m) := by
    rintro s m ⟨message, h⟩
    cases h
  have hkey : ∀ v, Raises (fun e ↦ ¬Panics e) (sortableEncode v) := fun v ↦
    .ofOption (by rintro ⟨message, h⟩; cases h) _
  rw [adoptIn, hscan, ok_bind]
  split
  · exact .ok _
  refine (Raises.foldlM (fun s c ↦ ?_) _ _).bind fun _ ↦ .ok _
  refine (Raises.foldlM (fun st row ↦ ?_) _ _).bind fun _ ↦ .ok _
  rw [rebuildStep]
  split
  · exact .ok _
  · refine Raises.bind ?_ fun _ ↦
      ((hkey _).bind fun _ ↦ (hkey _).bind fun _ ↦ .ok _).bind fun _ ↦ .ok _
    rw [noteSeen]
    split
    · exact (hkey _).bind fun _ ↦ (Raises.guardOr (P := fun e ↦ ¬Panics e) hno).bind fun _ ↦ .ok _
    · exact .ok _

/-! ## Tables used through a static schema

A handle with a static schema writes to a table without registering it. What such a table is like
depends on the one schema that it was used through. -/

/-- Each index entry is that of a row, and in an indexed column. -/
def EntriesOfRows (t : TableStore) (schema : TableSchema) : Prop :=
  ∀ c k, (t.index c).get? k = some () → c ∈ schema.indexedColumns ∧
    ∃ row, t.HasRow schema row ∧ entryOf schema c row = some k

theorem EntriesOfRows.index_empty (h : t.EntriesOfRows schema)
    (hnone : ∀ row, ¬t.HasRow schema row) (c : String) : t.index c = ∅ := by
  refine OrdMap.ext fun k ↦ ?_
  cases hget : (t.index c).get? k with
  | none => simp
  | some u =>
    obtain ⟨-, row, hrow, -⟩ := h c k hget
    exact absurd hrow (hnone row)

variable [Unicode] {D : Type} [LinearOrder D] {g : Ann.Geometry D}

theorem RowChange.entriesOfRows {pk : PropValue} {k : Bytes} {old new : Option Properties}
    (hi : t.EntriesOfRows schema) (h : RowChange g schema pk k old new t t') :
    t'.EntriesOfRows schema := by
  intro c k' hget
  by_cases hc : c ∈ schema.indexedColumns
  · refine ⟨hc, ?_⟩
    rcases h.index c hc with ⟨o, n, ho, hn, hsame, heq⟩ | ⟨-, heq⟩
    · -- the entry of the row that changed is still its entry
      rw [heq] at hget
      obtain ⟨-, row, hrow, hentry⟩ := hi c k' hget
      by_cases hk : sortableKey row.pk = some k
      · have hvalues : row.values = o := by
          have hval := hrow.get?_rows hk
          rw [h.old_eq, ho, Option.some_inj] at hval
          exact hval.symm
        have hentry' : entryOf schema c ⟨pk, o⟩ = some k' := by
          rw [entryOf_congr h.key hk, ← hvalues]
          exact hentry
        obtain ⟨v, hv, hkey⟩ := entryOf_eq_some.mp hentry'
        obtain ⟨a, b, ha, -⟩ := indexKey_eq_ok.mp hkey
        exact ⟨⟨pk, n⟩, h.new_row hn,
          entryOf_eq_some.mpr ⟨v, indexable_eq_of_same hsame hv ha, hkey⟩⟩
      · exact ⟨row, h.hasRow_iff.mpr (.inr ⟨hrow, hk⟩), hentry⟩
    · rw [heq, get?_addEntry, get?_removeEntry] at hget
      split at hget
      · rename_i hnew
        obtain ⟨n, hn, hentry⟩ := Option.bind_eq_some_iff.mp hnew
        exact ⟨⟨pk, n⟩, h.new_row hn, hentry⟩
      · split at hget
        · cases hget
        · -- the entry of another row
          rename_i hold
          obtain ⟨-, row, hrow, hentry⟩ := hi c k' hget
          refine ⟨row, h.hasRow_iff.mpr (.inr ⟨hrow, fun hk ↦ hold ?_⟩), hentry⟩
          rw [← h.old_eq, hrow.get?_rows hk, Option.bind_some, entryOf_congr h.key hk]
          exact hentry
  · rw [h.index_other c hc] at hget
    exact absurd (hi c k' hget).1 hc

theorem keyed_of_rowSteps {V : PropValue → Prop} {s : TableStore} (hrows : s.RowsKeyed schema)
    (hentries : s.EntriesOfRows schema) (h : RowSteps g V schema s t) :
    t.RowsKeyed schema ∧ t.EntriesOfRows schema := by
  induction h with
  | refl => exact ⟨hrows, hentries⟩
  | tail _ hstep ih =>
    cases hstep with
    | row hchange _ => exact ⟨hchange.rowsKeyed ih.1, hchange.entriesOfRows ih.2⟩
    | counter n => exact ih

variable (g) in
/-- A table that was only used through the handles of one static schema, and is not registered. -/
inductive StaticRun (static : RelSchema) : TableStore → Prop
  | fresh : StaticRun static {}
  | write {t t' : TableStore} {op : RowOp} : StaticRun static t →
    t.applyOp g (.rows ⟨.ofRelSchema static, false⟩ op) = .ok t' → StaticRun static t'

/-- What such a table is like. -/
structure StaticTable (g : Ann.Geometry D) (static : RelSchema) (t : TableStore) : Prop where
  unregistered : t.schema = none
  rowsKeyed : t.RowsKeyed (.ofRelSchema static)
  entriesOfRows : t.EntriesOfRows (.ofRelSchema static)
  rowRun : RowRun g (.ofRelSchema static) t
  /-- Only an auto-increment schema has a counter. -/
  nextPk : static.autoIncrementPk = false → t.nextPk = 1

/-! ### The counter of a table without auto-increment -/

omit [Unicode] in
theorem noteExplicitPk_of_manual (hauto : schema.autoIncrementPk = false) (t : TableStore)
    (pk : PropValue) : t.noteExplicitPk schema pk = t := by
  cases pk with
  | int i => simp [noteExplicitPk, hauto]
  | _ => rfl

theorem nextPk_insertWithPkBulkIn {items : List (PropValue × Properties)}
    {onConflict : OnConflict} (hauto : schema.autoIncrementPk = false)
    (h : t.insertWithPkBulkIn g schema items onConflict = .ok t') : t'.nextPk = t.nextPk := by
  rw [insertWithPkBulkIn, bind_eq_ok] at h
  obtain ⟨-, -, h⟩ := h
  refine foldlM_invariant (fun s ↦ s.nextPk = t.nextPk) h rfl fun e _ s s' hs hstep ↦ ?_
  rw [noteExplicitPk_of_manual hauto] at hstep
  rw [nextPk_writeRowIn hstep, hs]

theorem nextPk_insertBulkIn {items : List Properties} {onConflict : OnConflict}
    {pks : List PropValue} (hauto : schema.autoIncrementPk = false)
    (h : t.insertBulkIn g schema items onConflict = .ok (pks, t')) : t'.nextPk = t.nextPk := by
  have halloc : ∀ values, allocatesPk schema values = false := fun values ↦ by
    rw [allocatesPk, hauto, Bool.false_and]
  have hcount : items.countP (allocatesPk schema) = 0 :=
    List.countP_eq_zero.mpr fun values _ ↦ by simp [halloc]
  simp only [insertBulkIn, hcount, reservePks, if_pos, bind_eq_ok] at h
  obtain ⟨⟨next, t₁⟩, hreserve, ⟨next', pks', t₂⟩, hloop, h⟩ := h
  obtain ⟨-, rfl⟩ := Prod.mk.inj (ok.inj hreserve)
  obtain ⟨-, rfl⟩ := Prod.mk.inj (ok.inj h)
  refine foldlM_invariant (fun st ↦ st.2.2.nextPk = t.nextPk) hloop rfl
    fun values _ ↦ ?_
  rintro ⟨next, pks, s⟩ ⟨next', pks', s'⟩ hs hstep
  obtain ⟨pk, s₁, hpk, hwrite, -⟩ := insertStep_eq_ok hstep
  rcases hpk with ⟨ha, -⟩ | ⟨-, -, rfl, -⟩
  · rw [halloc] at ha
    cases ha
  · rw [noteExplicitPk_of_manual hauto] at hwrite
    exact (nextPk_writeRowIn hwrite).trans hs

theorem RowChange.nextPk_eq {pk : PropValue} {k : Bytes} {old new : Option Properties}
    (h : RowChange g schema pk k old new t t') : t'.nextPk = t.nextPk := by
  rw [nextPk, h.frame.2.1, nextPk]

theorem nextPk_deleteRowIn {pk : PropValue} {b : Bool}
    (h : t.deleteRowIn g schema pk = .ok (b, t')) : t'.nextPk = t.nextPk := by
  rcases deleteRowIn_rowChange h with rfl | ⟨k, o, hchange⟩
  · rfl
  · exact hchange.nextPk_eq

theorem nextPk_updateRowIn {pk : PropValue} {mutate : Properties → Properties} {b : Bool}
    (h : t.updateRowIn g schema pk mutate = .ok (b, t')) : t'.nextPk = t.nextPk := by
  rcases updateRowIn_rowChange h with rfl | ⟨k, o, hchange⟩
  · rfl
  · exact hchange.nextPk_eq

theorem nextPk_deleteIn {q : Query} {n : ℕ} (h : t.deleteIn g schema q = .ok (n, t')) :
    t'.nextPk = t.nextPk := by
  rw [deleteIn, bind_eq_ok] at h
  obtain ⟨rows, -, h⟩ := h
  refine foldlM_invariant (fun st ↦ st.2.nextPk = t.nextPk) h rfl
    fun row _ ↦ ?_
  rintro ⟨n, s⟩ ⟨n', s'⟩ hs hstep
  simp only [bind_eq_ok] at hstep
  obtain ⟨⟨b, s₁⟩, hdelete, hstep⟩ := hstep
  obtain ⟨-, rfl⟩ := Prod.mk.inj (ok.inj hstep)
  exact (nextPk_deleteRowIn hdelete).trans hs

theorem nextPk_updateIn {q : Query} {sets : List (String × PropValue)} {n : ℕ}
    (h : t.updateIn g schema q sets = .ok (n, t')) : t'.nextPk = t.nextPk := by
  rw [updateIn] at h
  split at h
  · cases h
  simp only [bind_eq_ok] at h
  obtain ⟨rows, -, h⟩ := h
  refine foldlM_invariant (fun st ↦ st.2.nextPk = t.nextPk) h rfl
    fun row _ ↦ ?_
  rintro ⟨n, s⟩ ⟨n', s'⟩ hs hstep
  simp only [bind_eq_ok] at hstep
  obtain ⟨⟨b, s₁⟩, hupdate, hstep⟩ := hstep
  obtain ⟨-, rfl⟩ := Prod.mk.inj (ok.inj hstep)
  exact (nextPk_updateRowIn hupdate).trans hs

theorem nextPk_applyRowOp {op : RowOp} (hauto : schema.autoIncrementPk = false)
    (h : t.applyRowOp g schema op = .ok t') : t'.nextPk = t.nextPk := by
  cases op with
  | insertBulk items onConflict =>
    obtain ⟨⟨pks, s⟩, hs, rfl⟩ := map_eq_ok.mp h
    exact nextPk_insertBulkIn hauto hs
  | insertWithPkBulk items onConflict => exact nextPk_insertWithPkBulkIn hauto h
  | update pk mutate =>
    obtain ⟨⟨b, s⟩, hs, rfl⟩ := map_eq_ok.mp h
    exact nextPk_updateRowIn hs
  | updateWhere q sets =>
    obtain ⟨⟨n, s⟩, hs, rfl⟩ := map_eq_ok.mp h
    exact nextPk_updateIn hs
  | delete pk =>
    obtain ⟨⟨b, s⟩, hs, rfl⟩ := map_eq_ok.mp h
    exact nextPk_deleteRowIn hs
  | deleteWhere q =>
    obtain ⟨⟨n, s⟩, hs, rfl⟩ := map_eq_ok.mp h
    exact nextPk_deleteIn hs

/-! ### The run -/

/-- An operation on an unregistered table works with the schema of its handle. -/
theorem applyOp_static {op : RowOp} (hnone : t.schema = none)
    (h : t.applyOp g (.rows ⟨schema, false⟩ op) = .ok t') :
    t.applyRowOp g schema op = .ok t' := by
  simp only [applyOp, bind_eq_ok] at h
  obtain ⟨-, -, schema', hresolve, h⟩ := h
  rw [resolveRef, hnone] at hresolve
  obtain rfl := ok.inj hresolve
  exact h

theorem StaticRun.staticTable {static : RelSchema} (h : StaticRun g static t) :
    StaticTable g static t := by
  induction h with
  | fresh => exact ⟨rfl, fun k values hget ↦ by simp at hget, fun c k hget ↦ by simp at hget,
      .empty rfl rfl, fun _ ↦ rfl⟩
  | write _ hop ih =>
    have hop := applyOp_static ih.unregistered hop
    have hsteps := applyRowOp_steps (fun _ ↦ trivial) (fun _ _ _ _ ↦ trivial)
      (RowOp.gives_true _) hop
    obtain ⟨hrows, hentries⟩ := keyed_of_rowSteps ih.rowsKeyed ih.entriesOfRows hsteps
    exact ⟨(schema_of_rowSteps hsteps).trans ih.unregistered, hrows, hentries, ih.rowRun.step hop,
      fun hauto ↦ (nextPk_applyRowOp hauto hop).trans (ih.nextPk hauto)⟩

/-! ## What registration establishes

Both ways to register, `create_table` and `ensure_table`, adopt in the same way, so the result is
stated for both. -/

/-- What a schema guarantees of its table. -/
structure Guarantees (t : TableStore) (schema : TableSchema) : Prop where
  rowsValid : ∀ k values, t.rows.get? k = some values →
    ∃ pk, sortableKey pk = some k ∧ validateRow schema pk values = .ok ()
  unique : ∀ c ∈ schema.columns, c.unique = true → t.UniqueHolds schema c.name
  indexExact : ∀ c ∈ schema.indexedColumns, t.IndexExact schema c
  counterAhead : schema.autoIncrementPk = true → t.CounterAhead schema

/-- The result of a registration: a table with the schema's guarantees, or an error. -/
def Sound (schema : TableSchema) : Except BknError TableStore → Prop
  | .ok t => t.Guarantees schema
  | .error e => ¬Panics e

/-- Both ways to register a schema lead to its guarantees, or fail. -/
def Establishes (t : TableStore) (schema : TableSchema) : Prop :=
  Sound schema ((t.createTableIn schema).map Prod.snd) ∧ Sound schema (t.ensureTableIn schema)

/-- Nothing in a row's values is at odds with a schema. -/
structure Fits (schema : TableSchema) (values : Properties) : Prop where
  /-- A value lies in a column that is declared, with its kind. -/
  declared : ∀ c v, values.get? c = some v →
    ∃ col, schema.column c = some col ∧ (v.isNull = true ∨ ColumnKind.of v = col.kind)
  /-- A `NOT NULL` column has a value. -/
  present : ∀ col ∈ schema.columns, col.nullable = false → col.name ≠ schema.primaryKey →
    (nonNull (values.get? col.name)).isSome = true

omit [Unicode] in
theorem validateRow_iff_fits {pk : PropValue} {values : Properties} {k : Bytes}
    (hkind : schema.pkKind = some (.of pk)) (hk : sortableKey pk = some k) :
    validateRow schema pk values = .ok () ↔ Fits schema values := by
  rw [validateRow_eq_ok]
  have hpk : checkValue schema schema.primaryKey pk = .ok () := by
    obtain ⟨c, hc, hof⟩ := Option.map_eq_some_iff.mp hkind
    exact checkValue_eq_ok.mpr ⟨c, hc, .inr hof.symm⟩
  constructor
  · rintro ⟨-, -, hvalues, hcols⟩
    refine ⟨fun c v hv ↦ checkValue_eq_ok.mp (hvalues (c, v) (OrdMap.mem_entries.mpr hv)),
      fun col hcol hnull hne ↦ ?_⟩
    rcases guardOr_eq_ok.mp (hcols col hcol) with h | h | h
    · rw [hnull] at h
      cases h
    · exact absurd h hne
    · exact h
  · intro h
    refine ⟨isNull_of_sortableKey hk, hpk, fun e he ↦
      checkValue_eq_ok.mpr (h.declared e.1 e.2 (OrdMap.mem_entries.mp he)), fun col hcol ↦ ?_⟩
    rw [checkNotNull, guardOr_eq_ok (u := ())]
    by_cases hnull : col.nullable = true
    · exact .inl hnull
    · by_cases hne : col.name = schema.primaryKey
      · exact .inr (.inl hne)
      · exact .inr (.inr (h.present col hcol (Bool.eq_false_iff.mpr hnull) hne))

omit [Unicode] in
/-- Over an unregistered table both ways to register do the same. -/
theorem establishes_of_unregistered (hnone : t.schema = none) :
    t.Establishes schema ↔
      Sound schema (checkTableName schema.name >>= fun _ ↦ t.adoptIn schema) := by
  have hensure : t.ensureTableIn schema =
      checkTableName schema.name >>= fun _ ↦ t.adoptIn schema := by
    rw [ensureTableIn, hnone]
  have hcreate : (t.createTableIn schema).map Prod.snd =
      checkTableName schema.name >>= fun _ ↦ t.adoptIn schema := by
    rw [createTableIn, hnone, map_bind]
    refine congrArg _ (funext fun _ ↦ ?_)
    cases t.adoptIn schema <;> rfl
  rw [Establishes, hcreate, hensure, and_self]

omit [Unicode] in
/-- **Registration makes the indexes exact**, whatever the rows hold. -/
theorem indexesExact_of_adoptIn (hkeyed : t.RowsKeyed schema)
    (hempty : (∀ row, ¬t.HasRow schema row) → ∀ c, t.index c = ∅)
    (h : t.adoptIn schema = .ok t') : t'.IndexesExact schema := by
  have hrows : t'.rows = t.rows := by rw [adoptIn_frame h]
  have hhas : ∀ row, t'.HasRow schema row ↔ t.HasRow schema row := fun row ↦ by
    rw [HasRow, hrows, HasRow]
  obtain ⟨rows, hrange, hindex⟩ := adoptIn_eq_ok hkeyed h
  refine ⟨?_, fun k values hget ↦ ?_, fun c hcol ↦ ?_⟩
  · obtain ⟨rows, hscan, -⟩ := bind_eq_ok.mp h
    obtain ⟨kind, hkind, -⟩ := scanAllIn_eq_ok hscan
    exact ⟨kind, hkind⟩
  · obtain ⟨pk, hk, hrow⟩ := hkeyed k values (hrows ▸ hget)
    exact ⟨pk, hk, (hhas _).mpr hrow⟩
  · rcases hindex c hcol with ⟨rfl, heq⟩ | hrebuilt
    · have hnone : ∀ row, ¬t.HasRow schema row := fun row hrow ↦
        absurd ((hrange.mem_unbounded row).mpr hrow) List.not_mem_nil
      refine ⟨fun row v hrow ↦ absurd ((hhas row).mp hrow) (hnone row), fun k hk ↦ ?_⟩
      rw [heq, hempty hnone] at hk
      simp at hk
    · exact hrebuilt.indexExact fun row ↦ (hrange.mem_unbounded row).trans (hhas row).symm

theorem StaticRun.indexesExact {static : RelSchema} (hrun : StaticRun g static t)
    (hpk : schema.pkKind = (TableSchema.ofRelSchema static).pkKind) {created : Bool}
    (h : t.createTableIn schema = .ok (created, t')) : t'.IndexesExact schema := by
  have hstatic := hrun.staticTable
  simp only [createTableIn, hstatic.unregistered, bind_eq_ok] at h
  obtain ⟨-, -, s, hadopt, h⟩ := h
  obtain ⟨-, rfl⟩ := Prod.mk.inj (ok.inj h)
  refine indexesExact_of_adoptIn (fun k values hget ↦ ?_) (fun hnone ↦ ?_) hadopt
  · obtain ⟨pk, hk, hrow⟩ := hstatic.rowsKeyed k values hget
    exact ⟨pk, hk, (hasRow_congr hpk).mpr hrow⟩
  · exact hstatic.entriesOfRows.index_empty fun row hrow ↦ hnone row ((hasRow_congr hpk).mpr hrow)

omit [Unicode] in
/-- The rows and the counter are as they were, so they are as promised only if they were. -/
theorem guarantees_of_adoptIn (hkeyed : t.RowsKeyed schema) (hc : schema.Constructible)
    (hempty : (∀ row, ¬t.HasRow schema row) → ∀ c, t.index c = ∅)
    (h : t.adoptIn schema = .ok t') :
    t'.Guarantees schema ↔ (∀ row, t.HasRow schema row → Fits schema row.values) ∧
      (schema.autoIncrementPk = true → t.CounterAhead schema) := by
  have hframe := adoptIn_frame h
  have hrows : t'.rows = t.rows := by rw [hframe]
  have hhas : ∀ row, t'.HasRow schema row ↔ t.HasRow schema row := fun row ↦ by
    rw [HasRow, hrows, HasRow]
  have hnext : t'.nextPk = t.nextPk := by rw [nextPk, nextPk, hframe]
  have hcounter : t'.CounterAhead schema ↔ t.CounterAhead schema := by
    simp only [CounterAhead, hhas, hnext]
  obtain ⟨rows, hrange, hindex⟩ := adoptIn_eq_ok hkeyed h
  constructor
  · refine fun hg ↦ ⟨fun row hrow ↦ ?_, fun hauto ↦ hcounter.mp (hg.counterAhead hauto)⟩
    obtain ⟨hkind, k, hk, hget⟩ := hrow
    obtain ⟨pk, hpk, hvalid⟩ := hg.rowsValid k row.values (hrows ▸ hget)
    exact (validateRow_iff_fits (pkKind_of_validateRow hvalid) hpk).mp hvalid
  · rintro ⟨hfits, hahead⟩
    refine ⟨fun k values hget ↦ ?_, fun c hcol hu ↦ ?_, fun c hcol ↦ ?_,
      fun hauto ↦ hcounter.mpr (hahead hauto)⟩
    · obtain ⟨pk, hk, hrow⟩ := hkeyed k values (hrows ▸ hget)
      exact ⟨pk, hk, (validateRow_iff_fits hrow.1 hk).mpr (hfits _ hrow)⟩
    · obtain ⟨hindexed, hcolumn⟩ := uniqueIndexed_of_constructible hc hcol hu
      intro row row' v hrow hrow' hv hv'
      have hmem := (hrange.mem_unbounded row).mpr ((hhas row).mp hrow)
      have hmem' := (hrange.mem_unbounded row').mpr ((hhas row').mp hrow')
      rcases hindex c.name hindexed with ⟨rfl, -⟩ | hrebuilt
      · exact absurd hmem List.not_mem_nil
      · exact hrebuilt.eq_of_indexable (by rw [hcolumn]; simpa using hu) hmem hmem' hv hv'
    · exact (indexesExact_of_adoptIn hkeyed hempty h).indexExact c hcol

/-- The counter is ahead exactly if it was kept, or if there is nothing to be ahead of. -/
theorem StaticTable.counterAhead_iff {static : RelSchema} (h : StaticTable g static t)
    (hpk : schema.pkKind = (TableSchema.ofRelSchema static).pkKind) :
    t.CounterAhead schema ↔ static.autoIncrementPk = true ∨
      ∀ row i, t.HasRow schema row → row.pk = .int i → i.toInt ≤ 0 := by
  constructor
  · intro hahead
    by_cases hauto : static.autoIncrementPk = true
    · exact .inl hauto
    · refine .inr fun row i hrow hi ↦ ?_
      by_contra hpos
      have hlt := hahead row i hrow hi (by omega)
      rw [h.nextPk (Bool.eq_false_iff.mpr hauto)] at hlt
      omega
  · rintro (hauto | hnone) row i hrow hi hpos
    · exact (h.rowRun.counterOk hauto).ahead row i ((hasRow_congr hpk).mp hrow) hi hpos
    · have hle := hnone row i hrow hi
      omega

/-- **When registration establishes the guarantees of the schema.** It is refused for its name or
for a value in an indexed column; or else each row fits the schema, and an auto-increment schema
meets rows whose keys were counted, or are not positive. -/
theorem establishes_iff {static : RelSchema} (hrun : StaticRun g static t)
    (hc : schema.Constructible) (hpk : schema.pkKind = (TableSchema.ofRelSchema static).pkKind) :
    t.Establishes schema ↔ schema.name ∈ reservedTableNames ∨
      ((∃ kind, schema.pkKind = some kind) ∧ (t.Clashes schema ∨
        ((∀ row, t.HasRow schema row → Fits schema row.values) ∧
          (schema.autoIncrementPk = true → static.autoIncrementPk = true ∨
            ∀ row i, t.HasRow schema row → row.pk = .int i → i.toInt ≤ 0)))) := by
  have hstatic := hrun.staticTable
  rw [establishes_of_unregistered hstatic.unregistered, checkTableName, guardOr]
  by_cases hname : schema.name ∈ reservedTableNames
  · rw [if_neg (not_not_intro hname), error_bind]
    refine ⟨fun _ ↦ .inl hname, fun _ h ↦ ?_⟩
    obtain ⟨_, h⟩ := h
    cases h
  rw [if_pos hname, ok_bind, or_iff_right hname]
  have hkeyed : t.RowsKeyed schema := fun k values hget ↦ by
    obtain ⟨pk, hk, hrow⟩ := hstatic.rowsKeyed k values hget
    exact ⟨pk, hk, (hasRow_congr hpk).mpr hrow⟩
  have hempty : (∀ row, ¬t.HasRow schema row) → ∀ c, t.index c = ∅ := fun hnone ↦
    hstatic.entriesOfRows.index_empty fun row hrow ↦ hnone row ((hasRow_congr hpk).mpr hrow)
  by_cases hdecl : ∃ kind, schema.pkKind = some kind
  · rw [and_iff_right hdecl]
    by_cases hclash : t.Clashes schema
    · -- the rebuild fails
      refine ⟨fun _ ↦ .inl hclash, fun _ ↦ ?_⟩
      cases hadopt : t.adoptIn schema with
      | error e => exact (raises_adoptIn hkeyed hdecl).of_error e hadopt
      | ok t' => exact absurd hclash (not_clashes_of_adoptIn hkeyed hadopt)
    · obtain ⟨t', hadopt⟩ := adoptIn_isOk hkeyed hdecl hclash
      rw [or_iff_right hclash, hadopt, Sound, guarantees_of_adoptIn hkeyed hc hempty hadopt,
        hstatic.counterAhead_iff hpk]
  · -- a key column that is not declared panics
    have hnone : schema.column schema.primaryKey = none := by
      cases hcol : schema.column schema.primaryKey with
      | none => rfl
      | some c => exact absurd ⟨c.kind, by rw [TableSchema.pkKind, hcol]; rfl⟩ hdecl
    have hpanic : t.adoptIn schema = .error
        (.panic "TableSchema.primary_key must name one of its columns") := by
      rw [adoptIn, scanAllIn, TableSchema.primaryKeyColumn, hnone]
      rfl
    rw [hpanic]
    exact ⟨fun h ↦ absurd ⟨_, rfl⟩ h, fun h ↦ absurd h.1 hdecl⟩

end TableStore

/-! ## Concrete registrations -/

namespace TableStore

/-- Points, numbered by hand. -/
def pointsStatic : RelSchema where
  name := "points"
  columns := [("id", .int), ("x", .int)]
  primaryKey := "id"
  autoIncrementPk := false
  indexedColumns := []

/-- The schema with names for coordinates. -/
def namedSchema (indexed : List String) : TableSchema := .ofRelSchema
  { pointsStatic with columns := [("id", .int), ("x", .str)], indexedColumns := indexed }

/-- The key of point 1. -/
private def pointKey : Bytes := Bytes.be 8 (flipSign 1).toNat

/-- Whether a registration left point 1 as it was and its number in front of the counter. -/
private def leavesPoint (r : Except BknError (Bool × TableStore)) : Bool :=
  r.toOption.any fun p ↦ decide (p.2.nextPk = 1) && (p.2.rows.get? pointKey).any fun values ↦
    match values.get? "x" with
    | some (.int i) => i == 5
    | _ => false

private theorem leavesPoint_iff {r : Except BknError (Bool × TableStore)}
    (h : leavesPoint r = true) : ∃ b t values, r = .ok (b, t) ∧ t.nextPk = 1 ∧
      t.rows.get? pointKey = some values ∧ values.get? "x" = some (.int 5) := by
  cases r with
  | error e => cases h
  | ok p =>
    simp only [leavesPoint, Except.toOption, Option.any_some, Bool.and_eq_true, decide_eq_true_eq,
      Option.any_eq_true] at h
    obtain ⟨hnext, values, hget, hx⟩ := h
    refine ⟨p.1, p.2, values, rfl, hnext, hget, ?_⟩
    split at hx
    · rename_i i hi
      rw [hi, beq_iff_eq.mp hx]
    · cases hx

/-- A row written through a static schema, then registered under another schema. -/
theorem exists_adopted {schema : TableSchema} {static : RelSchema} {row : Properties}
    {p : TableStore → Bool}
    (hpk : schema.pkKind = (TableSchema.ofRelSchema static).pkKind)
    (h : (do
      let t ← @applyOp Unicode.ascii ℕ _ Ann.flat {}
        (.rows ⟨.ofRelSchema static, false⟩ (.insertBulk [row] .error))
      let (_, t) ← t.createTableIn schema
      return t).toOption.any p = true) :
    ∃ t t' : TableStore, @StaticRun Unicode.ascii ℕ _ Ann.flat static t ∧
      (∃ created, t.createTableIn schema = .ok (created, t')) ∧ t'.IndexesExact schema ∧
      p t' = true := by
  obtain ⟨t', ht', hp⟩ := any_toOption.mp h
  obtain ⟨t, hop, ht'⟩ := bind_eq_ok.mp ht'
  obtain ⟨⟨created, s⟩, hcreate, hs⟩ := bind_eq_ok.mp ht'
  obtain rfl := ok.inj hs
  have hrun := @StaticRun.write Unicode.ascii ℕ _ Ann.flat _ _ _ _
    (@StaticRun.fresh Unicode.ascii ℕ _ Ann.flat _) hop
  exact ⟨t, s, hrun, ⟨created, hcreate⟩,
    @StaticRun.indexesExact _ _ _ Unicode.ascii ℕ _ Ann.flat _ hrun hpk _ hcreate, hp⟩

private theorem exists_static : ∃ t : TableStore,
    @StaticRun Unicode.ascii ℕ _ Ann.flat pointsStatic t ∧ t.rows.size = 1 ∧
      (∀ e ∈ t.rows.entries, ∀ v ∈ e.2.entries, v.1 = "x" ∧ ColumnKind.of v.2 = .int) ∧
      leavesPoint (t.createTableIn numberedSchema) = true ∧
      leavesPoint (t.createTableIn (namedSchema [])) = true := by
  have hcheck : (@applyOp Unicode.ascii ℕ _ Ann.flat {}
      (.rows ⟨.ofRelSchema pointsStatic, false⟩ (.insertBulk [RelRun.point] .error))).toOption.any
        (fun t ↦ decide (t.rows.size = 1) && (t.rows.entries.all fun e ↦ e.2.entries.all fun v ↦
          decide (v.1 = "x" ∧ ColumnKind.of v.2 = .int)) &&
            leavesPoint (t.createTableIn numberedSchema) &&
              leavesPoint (t.createTableIn (namedSchema []))) = true := by
    decide +kernel
  cases hop : @applyOp Unicode.ascii ℕ _ Ann.flat {}
      (.rows ⟨.ofRelSchema pointsStatic, false⟩ (.insertBulk [RelRun.point] .error)) with
  | error e =>
    rw [hop] at hcheck
    cases hcheck
  | ok t =>
    rw [hop] at hcheck
    simp only [Except.toOption, Option.any_some, Bool.and_eq_true, decide_eq_true_eq,
      List.all_eq_true] at hcheck
    obtain ⟨⟨⟨hsize, hvalues⟩, hnumbered⟩, hnamed⟩ := hcheck
    exact ⟨t, @StaticRun.write Unicode.ascii ℕ _ Ann.flat _ _ _ _
      (@StaticRun.fresh Unicode.ascii ℕ _ Ann.flat _) hop, hsize, hvalues,
      hnumbered, hnamed⟩

/-- With an index on `x` nothing is missing afterwards. -/
theorem establishes_points : ∃ t : TableStore, t.rows.size = 1 ∧
    t.Establishes (pointsSchema ["x"]) := by
  obtain ⟨t, hrun, hsize, hvalues, -⟩ := exists_static
  refine ⟨t, hsize, (@establishes_iff t (pointsSchema ["x"]) Unicode.ascii ℕ _ Ann.flat _ hrun
    (.inl ⟨_, rfl⟩) rfl).mpr (.inr ⟨⟨.int, rfl⟩, .inr ⟨fun row hrow ↦ ?_, fun h ↦ by cases h⟩⟩)⟩
  obtain ⟨-, k, -, hget⟩ := hrow
  refine ⟨fun c v hv ↦ ?_, fun col hcol hnull ↦ ?_⟩
  · obtain ⟨rfl, hkind⟩ := hvalues _ (OrdMap.mem_entries.mpr hget) _ (OrdMap.mem_entries.mpr hv)
    exact ⟨_, rfl, .inr hkind⟩
  · -- every column of a static schema is nullable
    obtain ⟨c, -, rfl⟩ := List.mem_map.mp hcol
    cases hnull

/-- Point 1, adopted by a schema that allocates numbers, is met by the next insert; adopted by one
with names in `x`, it is not valid. -/
theorem not_establishes_points : ∃ t : TableStore,
    @StaticRun Unicode.ascii ℕ _ Ann.flat pointsStatic t ∧ ¬t.Establishes numberedSchema ∧
      ¬t.Establishes (namedSchema []) := by
  obtain ⟨t, hrun, -, -, hnumbered, hnamed⟩ := exists_static
  refine ⟨t, hrun, fun h ↦ ?_, fun h ↦ ?_⟩
  · obtain ⟨b, t', values, heq, hnext, hget, -⟩ := leavesPoint_iff hnumbered
    have hg : t'.Guarantees numberedSchema := by
      have hsound := h.1
      rw [heq] at hsound
      exact hsound
    have hlt := hg.counterAhead rfl ⟨.int 1, values⟩ 1 ⟨rfl, pointKey, rfl, hget⟩ rfl (by decide)
    rw [hnext] at hlt
    exact absurd hlt (by decide)
  · obtain ⟨b, t', values, heq, -, hget, hx⟩ := leavesPoint_iff hnamed
    have hg : t'.Guarantees (namedSchema []) := by
      have hsound := h.1
      rw [heq] at hsound
      exact hsound
    obtain ⟨pk, -, hvalid⟩ := hg.rowsValid pointKey values hget
    obtain ⟨-, -, hvalues, -⟩ := validateRow_eq_ok.mp hvalid
    obtain ⟨c, hc, hkind⟩ := checkValue_eq_ok.mp (hvalues ("x", .int 5) (OrdMap.mem_entries.mpr hx))
    obtain rfl : c = { name := "x", kind := .str } := (Option.some.inj hc).symm
    rcases hkind with h | h <;> cases h

end TableStore
