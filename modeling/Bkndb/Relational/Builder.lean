import Bkndb.Relational.Invariant

/-!
# Schemas from the builder

A schema that the builder returned is in a normal form: the key column is `NOT NULL` and nothing
else, and the indexed columns are listed once, the `UNIQUE` ones among them. Building a normal
schema again returns it as it is, so adding an index to one and dropping it leads back to it.

`Normal` is what the results on migrations need of a schema: that adding an index and dropping it
again leads back to the same definition. A schema that was converted from a static one may lack it,
and then the round trip ends in a definition that does not compare equal.
-/

open Except

namespace TableSchemaBuilder

/-! ## The key column -/

/-- The key column as the builder leaves it. -/
def pkColumn (c : ColumnSchema) : ColumnSchema :=
  { c with nullable := false, unique := false, default := none }

theorem normalizePk_normalizePk (pk : String) (columns : List ColumnSchema) :
    normalizePk pk (normalizePk pk columns) = normalizePk pk columns := by
  induction columns with
  | nil => rfl
  | cons c columns ih =>
    by_cases hc : (c.name == pk) = true
    · simp [normalizePk, hc]
    · simp [normalizePk, hc, ih]

theorem find?_normalizePk {pk : String} {columns : List ColumnSchema} {c : ColumnSchema}
    (h : columns.find? (·.name == pk) = some c) :
    (normalizePk pk columns).find? (·.name == pk) = some (pkColumn c) := by
  induction columns with
  | nil => cases h
  | cons a columns ih =>
    by_cases ha : (a.name == pk) = true
    · rw [List.find?_cons_of_pos (by exact ha), Option.some_inj] at h
      rw [normalizePk, if_pos ha, List.find?_cons_of_pos (by exact ha), h, pkColumn]
    · rw [List.find?_cons_of_neg (by exact ha)] at h
      rw [normalizePk, if_neg ha, List.find?_cons_of_neg (by exact ha), ih h]

/-- A column that passes its checks passes them as a key column. -/
theorem checkColumn_pkColumn {table : String} {seen seen' : List String} {c : ColumnSchema}
    (h : checkColumn table seen c = .ok seen') : checkColumn table seen (pkColumn c) = .ok seen' := by
  simp only [checkColumn, pkColumn] at h ⊢
  cases hid : checkIdentifier "column" c.name with
  | error message =>
    simp [hid, throw, throwThe, MonadExceptOf.throw] at h
  | ok u =>
    rw [hid] at h
    simp only [bind_eq_ok, guardOr_eq_ok] at h
    simp only [bind_eq_ok]
    obtain ⟨u₁, hseen, u₂, hkind, u₃, -, h⟩ := h
    refine ⟨u₁, guardOr_eq_ok.mpr hseen, u₂, guardOr_eq_ok.mpr hkind, u₃,
      guardOr_eq_ok.mpr (by simp), ?_⟩
    cases hd : c.default with
    | none =>
      rw [hd] at h
      exact h
    | some d =>
      have hseen' : seen' = c.name :: seen := by
        rw [hd] at h
        cases d
        all_goals
          simp only [bind_eq_ok] at h
          obtain ⟨-, -, h⟩ := h
          exact (ok.inj h).symm
      rw [hseen']
      rfl

theorem checkColumns_normalizePk {table pk : String} {columns : List ColumnSchema}
    {seen seen' : List String} (h : columns.foldlM (checkColumn table) seen = .ok seen') :
    (normalizePk pk columns).foldlM (checkColumn table) seen = .ok seen' := by
  induction columns generalizing seen with
  | nil => exact h
  | cons c columns ih =>
    rw [List.foldlM_cons, bind_eq_ok] at h
    obtain ⟨s, hs, h⟩ := h
    rw [normalizePk]
    split
    · exact bind_eq_ok.mpr ⟨s, checkColumn_pkColumn hs, h⟩
    · exact bind_eq_ok.mpr ⟨s, hs, ih h⟩

/-! ## The indexed columns -/

/-- A list of indexed columns as the builder leaves it: each once, declared, of a kind with keys, and
not the key column. -/
structure IndexList (columns : List ColumnSchema) (pk : String) (indexed : List String) : Prop where
  nodup : indexed.Nodup
  not_pk : pk ∉ indexed
  keyable : ∀ n ∈ indexed, ∃ c, columns.find? (·.name == n) = some c ∧ c.kind.isKeyable = true

variable {table pk : String} {columns : List ColumnSchema}

/-- A step either skips the name or appends it. -/
theorem addIndexed_eq_ok {indexed indexed' : List String} {n : String}
    (h : addIndexed table columns pk indexed n = .ok indexed') :
    ((n = pk ∨ n ∈ indexed) ∧ indexed' = indexed) ∨
      (n ≠ pk ∧ n ∉ indexed ∧ indexed' = indexed ++ [n] ∧
        ∃ c, columns.find? (·.name == n) = some c ∧ c.kind.isKeyable = true) := by
  rw [addIndexed] at h
  split at h
  · rename_i hskip
    exact .inl ⟨hskip, (ok.inj h).symm⟩
  · rename_i hskip
    rw [not_or] at hskip
    simp only [bind_eq_ok, ofOption_eq_ok, guardOr_eq_ok] at h
    obtain ⟨c, hc, -, hkey, h⟩ := h
    exact .inr ⟨hskip.1, hskip.2, (ok.inj h).symm, c, hc, hkey⟩

theorem addIndexed_of_skip {indexed : List String} {n : String} (h : n = pk ∨ n ∈ indexed) :
    addIndexed table columns pk indexed n = .ok indexed := by
  rw [addIndexed, if_pos h]
  rfl

theorem IndexList.addIndexed {indexed indexed' : List String} {n : String}
    (hi : IndexList columns pk indexed)
    (h : TableSchemaBuilder.addIndexed table columns pk indexed n = .ok indexed') :
    IndexList columns pk indexed' := by
  rcases addIndexed_eq_ok h with ⟨-, rfl⟩ | ⟨hpk, hnot, rfl, hkey⟩
  · exact hi
  · refine ⟨?_, ?_, fun m hm ↦ ?_⟩
    · rw [List.nodup_append]
      refine ⟨hi.nodup, List.nodup_singleton n, fun a ha b hb ↦ ?_⟩
      rw [List.mem_singleton.mp hb]
      rintro rfl
      exact hnot ha
    · rw [List.mem_append, List.mem_singleton]
      rintro (hmem | rfl)
      · exact hi.not_pk hmem
      · exact hpk rfl
    · rcases List.mem_append.mp hm with hm | hm
      · exact hi.keyable m hm
      · exact List.mem_singleton.mp hm ▸ hkey

theorem indexList_of_foldlM {names indexed : List String}
    (h : names.foldlM (TableSchemaBuilder.addIndexed table columns pk) [] = .ok indexed) :
    IndexList columns pk indexed :=
  foldlM_invariant (IndexList columns pk) h ⟨List.nodup_nil, by simp, by simp⟩
    fun _ _ _ _ hi hstep ↦ hi.addIndexed hstep

theorem IndexList.foldlM {done todo : List String} (h : IndexList columns pk (done ++ todo)) :
    todo.foldlM (TableSchemaBuilder.addIndexed table columns pk) done = .ok (done ++ todo) := by
  induction todo generalizing done with
  | nil => rw [List.append_nil]; rfl
  | cons n todo ih =>
    have hn : n ∈ done ++ n :: todo := by simp
    obtain ⟨c, hc, hkey⟩ := h.keyable n hn
    have hskip : ¬(n = pk ∨ n ∈ done) := by
      rintro (rfl | hmem)
      · exact h.not_pk hn
      · exact (List.nodup_append.mp h.nodup).2.2 n hmem n (by simp) rfl
    have hstep : TableSchemaBuilder.addIndexed table columns pk done n = .ok (done ++ [n]) := by
      rw [TableSchemaBuilder.addIndexed, if_neg hskip, hc, Except.ofOption, ok_bind,
        Except.guardOr, if_pos hkey]
      rfl
    have happend : done ++ n :: todo = done ++ [n] ++ todo := by simp
    rw [List.foldlM_cons, hstep, ok_bind, happend]
    exact ih (happend ▸ h)

theorem foldlM_addIndexed_of_skip {names indexed : List String}
    (h : ∀ n ∈ names, n = pk ∨ n ∈ indexed) :
    names.foldlM (TableSchemaBuilder.addIndexed table columns pk) indexed = .ok indexed := by
  induction names with
  | nil => rfl
  | cons n names ih =>
    rw [List.foldlM_cons, addIndexed_of_skip (h n List.mem_cons_self), ok_bind]
    exact ih fun m hm ↦ h m (List.mem_cons_of_mem _ hm)

/-! ## Schemas in normal form -/

/-- What the builder checked, and the form it left the schema in. -/
structure Normal (s : TableSchema) : Prop where
  table : checkIdentifier "table" s.name = .ok ()
  notReserved : checkTableName s.name = .ok ()
  checked : ∃ seen, s.columns.foldlM (checkColumn s.name) [] = .ok seen
  pk : ∃ c, s.columns.find? (·.name == s.primaryKey) = some c ∧ c.kind.isKeyable = true ∧
    ¬(s.autoIncrementPk = true ∧ c.kind ≠ .int) ∧ c.nullable = false
  normalized : normalizePk s.primaryKey s.columns = s.columns
  indexed : IndexList s.columns s.primaryKey s.indexedColumns
  /-- The `UNIQUE` columns are indexed. -/
  unique : ∀ c ∈ s.columns, c.unique = true → c.name ∈ s.indexedColumns

theorem normal_of_build {b : TableSchemaBuilder} {s : TableSchema} (h : b.build = .ok s) :
    Normal s := by
  have huniques := (build_wf h).uniqueIndexed
  rw [build] at h
  cases hid : checkIdentifier "table" b.name with
  | error e => simp [hid, throw, throwThe, MonadExceptOf.throw] at h
  | ok u =>
    rw [hid] at h
    simp only [bind_eq_ok, ofOption_eq_ok, guardOr_eq_ok] at h
    obtain ⟨⟨⟩, hname, seen, hcols, pk, -, c, hc, -, hkey, -, hauto, indexed, hindexed, h⟩ := h
    obtain rfl := ok.inj h
    exact ⟨hid, hname, ⟨seen, checkColumns_normalizePk hcols⟩,
      ⟨pkColumn c, find?_normalizePk hc, hkey, hauto, rfl⟩, normalizePk_normalizePk pk b.columns,
      indexList_of_foldlM hindexed, fun c hc hu ↦ (huniques c hc hu).1⟩

/-- Building a normal schema with some indexes asked for. -/
theorem Normal.build {s : TableSchema} (h : Normal s) (names : List String) :
    ({ s.toBuilder with indexedColumns := names } : TableSchemaBuilder).build =
      ((names ++ (s.columns.filter (·.unique)).map (·.name)).foldlM
        (TableSchemaBuilder.addIndexed s.name s.columns s.primaryKey) []).map
          fun indexed ↦ { s with indexedColumns := indexed } := by
  obtain ⟨seen, hseen⟩ := h.checked
  obtain ⟨c, hc, hkey, hauto, -⟩ := h.pk
  change (TableSchemaBuilder.mk s.name s.columns (some s.primaryKey) s.autoIncrementPk
    names).build = _
  simp only [TableSchemaBuilder.build, h.table, h.notReserved, hseen, Except.ofOption, hc,
    h.normalized, ok_bind, guardOr_eq_ok (u := ()) |>.mpr hkey, guardOr_eq_ok (u := ()) |>.mpr hauto]
  cases (names ++ (s.columns.filter (·.unique)).map (·.name)).foldlM
    (TableSchemaBuilder.addIndexed s.name s.columns s.primaryKey) [] <;> rfl

theorem Normal.skip_unique {s : TableSchema} (h : Normal s) {indexed : List String}
    (hsub : s.indexedColumns ⊆ indexed) :
    ((s.columns.filter (·.unique)).map (·.name)).foldlM
      (TableSchemaBuilder.addIndexed s.name s.columns s.primaryKey) indexed = .ok indexed := by
  refine foldlM_addIndexed_of_skip fun n hn ↦ .inr ?_
  obtain ⟨c, hc, rfl⟩ := List.mem_map.mp hn
  obtain ⟨hc, hu⟩ := List.mem_filter.mp hc
  exact hsub (h.unique c hc hu)

/-- **Building a normal schema again** returns it. -/
theorem Normal.build_toBuilder {s : TableSchema} (h : Normal s) : s.toBuilder.build = .ok s := by
  have hindexed : s.indexedColumns.foldlM
      (TableSchemaBuilder.addIndexed s.name s.columns s.primaryKey) [] = .ok s.indexedColumns :=
    IndexList.foldlM (by simpa using h.indexed)
  have hbuild := h.build s.indexedColumns
  rw [List.foldlM_append, hindexed, ok_bind, h.skip_unique (List.Subset.refl _)] at hbuild
  exact hbuild

variable {s s' : TableSchema} {column : String}

/-- Adding an index to a normal schema adds it to the list, the key column's apart. -/
theorem Normal.build_index (h : Normal s) (hnot : column ∉ s.indexedColumns)
    (hbuild : (s.toBuilder.index column).build = .ok s') :
    (column = s.primaryKey ∧ s' = s) ∨
      (column ≠ s.primaryKey ∧ s' = { s with indexedColumns := s.indexedColumns ++ [column] }) := by
  have hindexed : s.indexedColumns.foldlM
      (TableSchemaBuilder.addIndexed s.name s.columns s.primaryKey) [] = .ok s.indexedColumns :=
    IndexList.foldlM (by simpa using h.indexed)
  have hindex : s.toBuilder.index column =
      { s.toBuilder with indexedColumns := s.indexedColumns ++ [column] } := by
    rw [index, if_neg]
    · rfl
    · rw [List.contains_iff_mem]
      exact hnot
  simp only [hindex, h.build, List.foldlM_append, hindexed, ok_bind, List.foldlM_cons,
    List.foldlM_nil, bind_pure] at hbuild
  cases hadd : TableSchemaBuilder.addIndexed s.name s.columns s.primaryKey s.indexedColumns
      column with
  | error e =>
    rw [hadd] at hbuild
    cases hbuild
  | ok indexed =>
    rw [hadd, ok_bind] at hbuild
    rcases addIndexed_eq_ok hadd with ⟨hskip, rfl⟩ | ⟨hpk, -, rfl, -⟩
    · rw [h.skip_unique (List.Subset.refl _)] at hbuild
      exact .inl ⟨hskip.resolve_right hnot, (ok.inj hbuild).symm⟩
    · rw [h.skip_unique (List.subset_append_left _ _)] at hbuild
      exact .inr ⟨hpk, (ok.inj hbuild).symm⟩

/-- **Dropping the index again** leads back to the schema. -/
theorem Normal.build_dropIndex (h : Normal s) (hnot : column ∉ s.indexedColumns)
    (hbuild : (s.toBuilder.index column).build = .ok s') :
    (s'.toBuilder.dropIndex column).build = .ok s := by
  -- the column was not unique, so dropping its index changes no column
  have hcolumns : s.columns.map (fun c ↦ if c.name == column then { c with unique := false } else c)
      = s.columns := by
    refine (List.map_congr_left fun c hc ↦ ?_).trans (List.map_id _)
    split
    · rename_i hname
      have hu : c.unique = false := by
        rw [← Bool.not_eq_true]
        exact fun hu ↦ hnot (beq_iff_eq.mp hname ▸ h.unique c hc hu)
      rw [← hu]
      rfl
    · rfl
  have hfilter : s.indexedColumns.filter (· != column) = s.indexedColumns :=
    List.filter_eq_self.mpr fun n hn ↦ bne_iff_ne.mpr fun heq ↦ hnot (heq ▸ hn)
  have hback : s'.toBuilder.dropIndex column = s.toBuilder := by
    rcases h.build_index hnot hbuild with ⟨-, rfl⟩ | ⟨-, rfl⟩
    · rw [dropIndex]
      simp only [TableSchema.toBuilder, hcolumns, hfilter]
    · rw [dropIndex]
      simp only [TableSchema.toBuilder, hcolumns, List.filter_append, hfilter]
      simp
  rw [hback, h.build_toBuilder]

end TableSchemaBuilder
