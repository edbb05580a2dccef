import Bkndb.Relational.Invariant

/-!
# Migrations keep the invariant

A migration rewrites the rows, clears the indexes that went, and rebuilds those that came or became
unique. The others are left as they are, which is right because an indexed column is declared on
both sides and so keeps its values.

## Which indexes stay

An index that both schemas name is not touched, unless the column is `UNIQUE` only now. Its entries
are right if the column's values are what they were, and these can change in two ways only: the
column was undeclared and gains a default, or it is dropped. Schemas that declare what they index
exclude both.

## Main results

* `Rebuilt.indexExact`: an index that was rebuilt from all rows is exact.
* `Migrated.tableInv`: a migration keeps the invariant of a registered table.
-/

open PropValue

namespace TableStore

variable {t t' : TableStore} {schema : TableSchema}

/-! ## Rebuilding -/

/-- An index rebuilt from rows: their entries, and nothing else. -/
structure Rebuilt (schema : TableSchema) (rows : List Row) (column : String)
    (index : OrdMap Bytes Unit) : Prop where
  encodable : ∀ row ∈ rows, Keyable schema column row
  entries : ∀ k, index.get? k = some () ↔ ∃ row ∈ rows, entryOf schema column row = some k
  /-- With `UNIQUE`, no value key occurs twice. -/
  unique : (schema.column column).any (·.unique) = true →
    rows.Pairwise fun a b ↦ ∀ v w x, indexable a schema column = some v →
      indexable b schema column = some w → sortableKey v = some x → sortableKey w ≠ some x

/-- The loop invariant of a rebuild: what was put in so far, and the value keys seen. -/
private structure Rebuilding (schema : TableSchema) (column : String) (unique : Bool)
    (done : List Row) (st : List Bytes × OrdMap Bytes Unit) : Prop where
  encodable : ∀ row ∈ done, Keyable schema column row
  entries : ∀ k, st.2.get? k = some () ↔ ∃ row ∈ done, entryOf schema column row = some k
  seen : unique = true → ∀ row ∈ done, ∀ v x, indexable row schema column = some v →
    sortableKey v = some x → x ∈ st.1
  distinct : unique = true →
    done.Pairwise fun a b ↦ ∀ v w x, indexable a schema column = some v →
      indexable b schema column = some w → sortableKey v = some x → sortableKey w ≠ some x

private theorem Rebuilding.step {column : String} {unique : Bool} {done : List Row}
    {st st' : List Bytes × OrdMap Bytes Unit} {row : Row}
    (h : Rebuilding schema column unique done st)
    (hstep : rebuildStep schema column unique st row = .ok st') :
    Rebuilding schema column unique (done ++ [row]) st' := by
  rw [rebuildStep] at hstep
  split at hstep
  · -- nothing to index
    rename_i hnone
    obtain rfl := Except.ok.inj hstep
    have hentry : entryOf schema column row = none := by rw [entryOf, hnone, Option.bind_none]
    refine ⟨?_, fun k ↦ ?_, fun hu ↦ ?_, fun hu ↦ ?_⟩
    · intro r hr v hv
      rcases List.mem_append.mp hr with hr | hr
      · exact h.encodable r hr v hv
      · rw [List.mem_singleton.mp hr, hnone] at hv
        simp at hv
    · rw [h.entries]
      simp [hentry]
    · intro r hr v x hv hx
      rcases List.mem_append.mp hr with hr | hr
      · exact h.seen hu r hr v x hv hx
      · rw [List.mem_singleton.mp hr, hnone] at hv
        simp at hv
    · rw [List.pairwise_append]
      refine ⟨h.distinct hu, List.pairwise_singleton .., fun a _ b hb v w x _ hw ↦ ?_⟩
      rw [List.mem_singleton.mp hb, hnone] at hw
      simp at hw
  · rename_i v hv
    rw [Except.bind_eq_ok] at hstep
    obtain ⟨seen, hseen, hstep⟩ := hstep
    rw [Except.bind_eq_ok] at hstep
    obtain ⟨key, hkey, hstep⟩ := hstep
    obtain rfl := Except.ok.inj hstep
    have hentry : entryOf schema column row = some key := entryOf_eq_some.mpr ⟨v, hv, hkey⟩
    -- a unique column's key is new
    have hnew : unique = true → ∃ x, sortableKey v = some x ∧ x ∉ st.1 ∧ seen = x :: st.1 := by
      intro hu
      rw [noteSeen, if_pos hu] at hseen
      simp only [Except.bind_eq_ok, sortableEncode_eq_ok, Except.guardOr_eq_ok] at hseen
      obtain ⟨x, hx, -, hnot, hseen⟩ := hseen
      exact ⟨x, hx, hnot, (Except.ok.inj hseen).symm⟩
    refine ⟨?_, fun k ↦ ?_, fun hu ↦ ?_, fun hu ↦ ?_⟩
    · intro r hr
      rcases List.mem_append.mp hr with hr | hr
      · exact h.encodable r hr
      · rw [List.mem_singleton.mp hr]
        intro w hw
        rw [hv, Option.some_inj] at hw
        exact ⟨key, hw ▸ hkey⟩
    · have hget : (st.2.insert key ()).get? k = some () ↔ k = key ∨ st.2.get? k = some () := by
        rw [OrdMap.get?_insert]
        split
        · simp [*]
        · simp [*]
      rw [hget, h.entries]
      simp [hentry, or_comm, eq_comm]
    · obtain ⟨x, hx, -, rfl⟩ := hnew hu
      intro r hr w y hw hy
      rcases List.mem_append.mp hr with hr | hr
      · exact List.mem_cons_of_mem _ (h.seen hu r hr w y hw hy)
      · rw [List.mem_singleton.mp hr, hv, Option.some_inj] at hw
        rw [← hw, hx, Option.some_inj] at hy
        exact hy ▸ List.mem_cons_self
    · obtain ⟨x, hx, hnot, -⟩ := hnew hu
      rw [List.pairwise_append]
      refine ⟨h.distinct hu, List.pairwise_singleton .., fun a ha b hb w w' y hw hw' hy hy' ↦ ?_⟩
      rw [List.mem_singleton.mp hb, hv, Option.some_inj] at hw'
      rw [← hw', hx, Option.some_inj] at hy'
      exact hnot (hy' ▸ h.seen hu a ha w y hw hy)

theorem rebuildIndex_eq_ok {rows : List Row} {column : String}
    (h : rebuildIndex schema rows t column = .ok t') :
    ∃ index, Rebuilt schema rows column index ∧
      t' = { t with index := Function.update t.index column index } := by
  simp only [rebuildIndex, Except.bind_eq_ok] at h
  obtain ⟨⟨seen, index⟩, hloop, h⟩ := h
  obtain rfl := Except.ok.inj h
  have hinv := Except.foldlM_induction
    (Rebuilding schema column ((schema.column column).any (·.unique))) hloop
    ⟨by simp, by simp, by simp, fun _ ↦ .nil⟩ fun done row st st' _ hP hst ↦ hP.step hst
  exact ⟨index, ⟨hinv.encodable, hinv.entries, hinv.distinct⟩, rfl⟩

/-- Two rows have the same key in a column. -/
def SameKey (schema : TableSchema) (column : String) (a b : Row) : Prop :=
  ∃ v w x, indexable a schema column = some v ∧ indexable b schema column = some w ∧
    sortableKey v = some x ∧ sortableKey w = some x

theorem SameKey.symm {column : String} {a b : Row} (h : SameKey schema column a b) :
    SameKey schema column b a := by
  obtain ⟨v, w, x, hv, hw, hx, hx'⟩ := h
  exact ⟨w, v, x, hw, hv, hx', hx⟩

theorem Rebuilt.eq_of_sameKey {rows : List Row} {column : String} {index : OrdMap Bytes Unit}
    (h : Rebuilt schema rows column index) (hu : (schema.column column).any (·.unique) = true)
    {row row' : Row} (hrow : row ∈ rows) (hrow' : row' ∈ rows)
    (hsame : SameKey schema column row row') : row = row' := by
  by_contra hne
  have hpair : rows.Pairwise fun a b ↦ ¬SameKey schema column a b :=
    (h.unique hu).imp fun hab ⟨v, w, x, hv, hw, hx, hx'⟩ ↦ hab v w x hv hw hx hx'
  have hsymm : Std.Symm fun a b : Row ↦ ¬SameKey schema column a b := ⟨fun _ _ h ↦ h ∘ .symm⟩
  exact hpair.forall hrow hrow' hne hsame

theorem Rebuilt.eq_of_indexable {rows : List Row} {column : String} {index : OrdMap Bytes Unit}
    (h : Rebuilt schema rows column index) (hu : (schema.column column).any (·.unique) = true)
    {row row' : Row} {v : PropValue} (hrow : row ∈ rows) (hrow' : row' ∈ rows)
    (hv : indexable row schema column = some v) (hv' : indexable row' schema column = some v) :
    row = row' := by
  obtain ⟨k, hk⟩ := h.encodable row hrow v hv
  obtain ⟨x, -, hx, -⟩ := indexKey_eq_ok.mp hk
  exact h.eq_of_sameKey hu hrow hrow' ⟨v, v, x, hv, hv', hx, hx⟩

/-- An index rebuilt from all rows is exact. -/
theorem Rebuilt.indexExact {rows : List Row} {column : String}
    (h : Rebuilt schema rows column (t.index column))
    (hmem : ∀ row, row ∈ rows ↔ t.HasRow schema row) : t.IndexExact schema column := by
  refine indexExact_iff.mpr ⟨fun row hrow ↦ h.encodable row ((hmem row).mpr hrow), fun k ↦ ?_⟩
  rw [h.entries]
  simp only [hmem]

theorem foldlM_rebuildIndex {rows : List Row} {columns : List String}
    (h : columns.foldlM (rebuildIndex schema rows) t = .ok t') :
    t' = { t with index := t'.index } ∧
      (∀ c ∈ columns, Rebuilt schema rows c (t'.index c)) ∧
      ∀ c, c ∉ columns → t'.index c = t.index c := by
  refine Except.foldlM_induction (fun done t' ↦ t' = { t with index := t'.index } ∧
    (∀ c ∈ done, Rebuilt schema rows c (t'.index c)) ∧ ∀ c, c ∉ done → t'.index c = t.index c) h
    ⟨rfl, by simp, by simp⟩ fun done c s s' _ hP hs ↦ ?_
  obtain ⟨heq, hdone, hrest⟩ := hP
  obtain ⟨index, hrebuilt, rfl⟩ := rebuildIndex_eq_ok hs
  refine ⟨?_, fun c' hc' ↦ ?_, fun c' hc' ↦ ?_⟩
  · conv_lhs => rw [heq]
  · by_cases hcc : c' = c
    · subst hcc
      simpa using hrebuilt
    · simp only [Function.update_of_ne hcc]
      exact hdone c' ((List.mem_append.mp hc').resolve_right (by simpa using hcc))
  · rw [List.mem_append, List.mem_singleton, not_or] at hc'
    simp only [Function.update_of_ne hc'.2]
    exact hrest c' hc'.1

theorem foldl_clearIndex (columns : List String) (t : TableStore) :
    columns.foldl clearIndex t =
      { t with index := fun c ↦ if c ∈ columns then ∅ else t.index c } := by
  induction columns generalizing t with
  | nil => simp
  | cons c columns ih =>
    rw [List.foldl_cons, ih, clearIndex]
    congr 1
    funext c'
    by_cases hcc : c' = c
    · simp [hcc]
    · simp [hcc]

/-! ## Migrated values -/

variable {old new : TableSchema}

/-- Filling in defaults only adds missing columns that the old schema did not have. -/
theorem get?_migrateValues (old new : TableSchema) (values : Properties) (k : String) :
    (∀ v, values.get? k = some v → (new.column k).isSome = true →
      (migrateValues old new values).get? k = some v) ∧
    ∀ v, (migrateValues old new values).get? k = some v →
      (values.get? k = some v ∧ (new.column k).isSome = true) ∨
        (values.get? k = none ∧ (new.column k).isSome = true ∧ old.column k = none) := by
  -- the columns processed are columns of the new schema
  suffices H : ∀ (columns : List ColumnSchema) (acc : Properties), columns ⊆ new.columns →
      (∀ v, values.get? k = some v → (new.column k).isSome = true → acc.get? k = some v) →
      (∀ v, acc.get? k = some v → (values.get? k = some v ∧ (new.column k).isSome = true) ∨
        (values.get? k = none ∧ (new.column k).isSome = true ∧ old.column k = none)) →
      let final := columns.foldl (fillDefault old) acc
      (∀ v, values.get? k = some v → (new.column k).isSome = true → final.get? k = some v) ∧
        ∀ v, final.get? k = some v → (values.get? k = some v ∧ (new.column k).isSome = true) ∨
          (values.get? k = none ∧ (new.column k).isSome = true ∧ old.column k = none) by
    refine H new.columns _ (List.Subset.refl _) (fun v hv hc ↦ ?_) (fun v hv ↦ ?_)
    · rw [OrdMap.get?_filter, hv]
      simp [hc]
    · rw [OrdMap.get?_filter, Option.filter_eq_some_iff] at hv
      exact .inl hv
  intro columns
  induction columns with
  | nil => exact fun acc _ h₁ h₂ ↦ ⟨h₁, h₂⟩
  | cons c columns ih =>
    intro acc hsub h₁ h₂
    have hsub' : columns ⊆ new.columns := fun c hc ↦ hsub (List.mem_cons_of_mem _ hc)
    rw [List.foldl_cons, fillDefault]
    split
    · split
      · rename_i d _ hguard
        obtain ⟨hold, hacc⟩ := hguard
        rw [Option.isNone_iff_eq_none] at hold hacc
        refine ih _ hsub' (fun v hv hc ↦ ?_) (fun v hv ↦ ?_)
        · have hget := h₁ v hv hc
          rw [OrdMap.get?_insert_of_ne _ _ (by rintro rfl; simp [hget] at hacc), hget]
        · by_cases hk : k = c.name
          · subst hk
            have hcol : (new.column c.name).isSome = true := by
              rw [TableSchema.column, List.find?_isSome]
              exact ⟨c, hsub List.mem_cons_self, by simp⟩
            refine .inr ⟨?_, hcol, hold⟩
            cases hval : values.get? c.name with
            | none => rfl
            | some w => simp [h₁ w hval hcol] at hacc
          · rw [OrdMap.get?_insert_of_ne _ _ hk] at hv
            exact h₂ v hv
      · exact ih acc hsub' h₁ h₂
    · exact ih acc hsub' h₁ h₂

theorem get?_migrateValues_of_declared (values : Properties) {k : String}
    (hnew : (new.column k).isSome = true) (hold : (old.column k).isSome = true) :
    (migrateValues old new values).get? k = values.get? k := by
  obtain ⟨h₁, h₂⟩ := get?_migrateValues old new values k
  cases hv : values.get? k with
  | some v => exact h₁ v hv hnew
  | none =>
    cases hm : (migrateValues old new values).get? k with
    | none => rfl
    | some v =>
      rcases h₂ v hm with ⟨hv', -⟩ | ⟨-, -, hnone⟩
      · simp [hv] at hv'
      · simp [hnone] at hold

theorem keys_eq_of_eqvEntries : ∀ {x y : List (String × PropValue)}, eqvEntries x y = true →
    x.map Prod.fst = y.map Prod.fst
  | [], [], _ => rfl
  | [], _ :: _, h => by simp [eqvEntries] at h
  | _ :: _, [], h => by simp [eqvEntries] at h
  | (k, a) :: x, (l, b) :: y, h => by
    simp only [eqvEntries, Bool.and_eq_true, beq_iff_eq] at h
    rw [List.map_cons, List.map_cons, keys_eq_of_eqvEntries h.2, h.1.1]

theorem migrateValues_eq_of_eqv {values : Properties}
    (h : eqvEntries (migrateValues old new values).entries values.entries = true) :
    migrateValues old new values = values := by
  have hkeys : (migrateValues old new values).keys = values.keys := keys_eq_of_eqvEntries h
  refine OrdMap.ext fun k ↦ ?_
  obtain ⟨-, h₂⟩ := get?_migrateValues old new values k
  have hmem : k ∈ (migrateValues old new values).keys ↔ k ∈ values.keys := by rw [hkeys]
  rw [OrdMap.mem_keys, OrdMap.mem_keys] at hmem
  cases hm : (migrateValues old new values).get? k with
  | none =>
    cases hv : values.get? k with
    | none => rfl
    | some v =>
      obtain ⟨w, hw⟩ := hmem.mpr ⟨v, hv⟩
      simp [hm] at hw
  | some v =>
    rcases h₂ v hm with ⟨hv, -⟩ | ⟨hv, -, -⟩
    · exact hv.symm
    · obtain ⟨w, hw⟩ := hmem.mp ⟨v, hm⟩
      simp [hv] at hw

/-! ## Migrated rows

The rows are read first and put back one by one. Each has a key of its own, so the loop does to
each row what it does to it alone. -/

/-- A row under the new schema. -/
def migrated (old new : TableSchema) (row : Row) : Row := ⟨row.pk, migrateValues old new row.values⟩

/-- What a scan read of a stored entry: its values, under a key that decodes from the stored one. -/
theorem scanAllIn_eq_ok {rows : List Row} (h : t.scanAllIn schema = .ok rows) :
    ∃ kind, schema.pkKind = some kind ∧
      List.Forall₂ (fun e row ↦ decodeSortable kind e.1 = .ok row.pk ∧ row.values = e.2)
        t.rows.entries rows := by
  simp only [scanAllIn, Except.bind_eq_ok] at h
  obtain ⟨pk, hpk, h⟩ := h
  rw [TableSchema.primaryKeyColumn, Except.ofOption_eq_ok] at hpk
  refine ⟨pk.kind, by rw [TableSchema.pkKind, hpk, Option.map_some], ?_⟩
  refine (Except.mapM_eq_ok_iff.mp h).imp fun e row hrow ↦ ?_
  rw [decodeBaseRow, Except.bind_eq_ok] at hrow
  obtain ⟨v, hv, hrow⟩ := hrow
  obtain rfl := Except.ok.inj hrow
  exact ⟨hv, rfl⟩

/-- The loop over the rows: each is validated and ends up with its migrated values. -/
theorem foldlM_migrateRow {rows out : List Row} (hscan : t.scanAllIn old = .ok rows)
    (h : rows.foldlM (migrateRow old new) ([], t) = .ok (out, t')) :
    out = rows.map (migrated old new) ∧ t' = { t with rows := t'.rows } ∧
      (∀ row ∈ rows, validateRow new row.pk (migrateValues old new row.values) = .ok ()) ∧
      ∀ k, t'.rows.get? k = (t.rows.get? k).map (migrateValues old new) := by
  have hout := Except.foldlM_induction (fun done st ↦ st.1 = done.map (migrated old new) ∧
    ∀ row ∈ done, validateRow new row.pk (migrateValues old new row.values) = .ok ()) h
    ⟨rfl, by simp⟩ fun done row st st' _ hP hstep ↦ by
      simp only [migrateRow, Except.bind_eq_ok] at hstep
      obtain ⟨⟨⟩, hrowValid, s, -, hstep⟩ := hstep
      obtain rfl := Except.ok.inj hstep
      exact ⟨by rw [hP.1, List.map_append]; rfl,
        List.forall_mem_append.mpr ⟨hP.2, by simpa using hrowValid⟩⟩
  obtain ⟨kind, -, hrows⟩ := scanAllIn_eq_ok hscan
  -- the stored entries treated so far are migrated, the others are as they were
  have hget := Except.foldlM_forall₂ (fun done st ↦ st.2 = { t with rows := st.2.rows } ∧
    ∀ k, st.2.rows.get? k = if k ∈ done.map Prod.fst
      then (t.rows.get? k).map (migrateValues old new) else t.rows.get? k) hrows h
    ⟨rfl, by simp⟩ fun done row e st st' hpre hrow hP hstep ↦ by
      obtain ⟨k, values⟩ := e
      obtain ⟨hdecode, hvalues⟩ := hrow
      have hstored : t.rows.get? k = some values :=
        OrdMap.mem_entries.mp (hpre.subset (by simp))
      simp only [migrateRow, Except.bind_eq_ok] at hstep
      obtain ⟨⟨⟩, -, s, hput, hstep⟩ := hstep
      obtain rfl := Except.ok.inj hstep
      have hs : s = { t with rows := s.rows } ∧ ∀ k', s.rows.get? k' =
          if k' = k then some (migrateValues old new values) else st.2.rows.get? k' := by
        rw [putMigrated, hvalues] at hput
        split at hput
        · rename_i heqv
          obtain rfl := Except.ok.inj hput
          refine ⟨hP.1, fun k' ↦ ?_⟩
          split
          · rename_i hkk
            rw [hkk, hP.2, hstored, migrateValues_eq_of_eqv heqv]
            simp [migrateValues_eq_of_eqv heqv]
          · rfl
        · simp only [Except.bind_eq_ok, sortableEncode_eq_ok] at hput
          obtain ⟨k', hk', hput⟩ := hput
          obtain rfl := sortableKey_of_decodeSortable hdecode hk'
          obtain rfl := Except.ok.inj hput
          refine ⟨by conv_lhs => rw [hP.1], fun k'' ↦ ?_⟩
          by_cases hkk : k'' = k'
          · simp [hkk]
          · simp [hkk, OrdMap.get?_insert_of_ne _ _ hkk]
      refine ⟨hs.1, fun k' ↦ ?_⟩
      rw [hs.2, hP.2]
      by_cases hkk : k' = k
      · subst hkk
        rw [if_pos rfl, if_pos (by simp), hstored, Option.map_some]
      · have hmem : k' ∈ (done ++ [(k, values)]).map Prod.fst ↔ k' ∈ done.map Prod.fst := by
          rw [List.map_append, List.mem_append, List.map_singleton, List.mem_singleton]
          exact or_iff_left hkk
        rw [if_neg hkk]
        by_cases hin : k' ∈ done.map Prod.fst
        · rw [if_pos hin, if_pos (hmem.mpr hin)]
        · rw [if_neg hin, if_neg (mt hmem.mp hin)]
  refine ⟨hout.1, hget.1, hout.2, fun k ↦ ?_⟩
  rw [hget.2]
  split
  · rfl
  · rename_i hnot
    cases hg : t.rows.get? k with
    | none => rfl
    | some values =>
      exact absurd (List.mem_map.mpr ⟨_, OrdMap.mem_entries.mpr hg, rfl⟩) hnot

/-- The search indexes are as before. -/
structure SameSearch (t t' : TableStore) : Prop where
  ftsColumns : t'.ftsColumns = t.ftsColumns
  ftsStats : t'.ftsStats = t.ftsStats
  postings : t'.postings = t.postings
  docs : t'.docs = t.docs
  annColumns : t'.annColumns = t.annColumns
  ann : t'.ann = t.ann

theorem SameSearch.trans {t t' t'' : TableStore} (h : SameSearch t t') (h' : SameSearch t' t'') :
    SameSearch t t'' :=
  ⟨h'.ftsColumns.trans h.ftsColumns, h'.ftsStats.trans h.ftsStats, h'.postings.trans h.postings,
    h'.docs.trans h.docs, h'.annColumns.trans h.annColumns, h'.ann.trans h.ann⟩

theorem sameSearch_of_rows_index {t t' : TableStore} {rows : OrdMap Bytes Properties}
    {index : String → OrdMap Bytes Unit} (h : t' = { t with rows := rows, index := index }) :
    SameSearch t t' := by
  subst h
  exact ⟨rfl, rfl, rfl, rfl, rfl, rfl⟩

/-- What a migration did to the rows and the indexes, given the rows it read. -/
structure Migrated (old new : TableSchema) (scanned : List Row) (t t' : TableStore) : Prop where
  primaryKey : old.primaryKey = new.primaryKey
  pkKind : old.pkKind = new.pkKind
  scan : t.scanAllIn old = .ok scanned
  rows : ∀ k, t'.rows.get? k = (t.rows.get? k).map (migrateValues old new)
  valid : ∀ row ∈ scanned, validateRow new row.pk (migrateValues old new row.values) = .ok ()
  rebuilt : ∀ c ∈ new.indexedColumns, needsRebuild old new c = true →
    Rebuilt new (scanned.map (migrated old new)) c (t'.index c)
  kept : ∀ c ∈ new.indexedColumns, needsRebuild old new c = false → t'.index c = t.index c
  cleared : ∀ c, c ∉ new.indexedColumns →
    t'.index c = if c ∈ old.indexedColumns then ∅ else t.index c
  kinds : ∀ c ∈ new.columns, ∀ o, old.column c.name = some o → o.kind = c.kind
  schema : t'.schema = some new
  search : SameSearch t t'

theorem migrateIn_migrated (h : t.migrateIn old new = .ok t') :
    ∃ scanned, Migrated old new scanned t t' := by
  simp only [migrateIn, Except.bind_eq_ok, Except.guardOr_eq_ok] at h
  obtain ⟨⟨⟩, hpk, oldPk, holdPk, newPk, hnewPk, ⟨⟩, hkind, ⟨⟩, hkinds, rows, hscan, ⟨out, t₁⟩, hloop,
    t₂, hrebuild, h⟩ := h
  obtain rfl := Except.ok.inj h
  have hcol : ∀ {s : TableSchema} {c : ColumnSchema}, s.primaryKeyColumn = .ok c →
      s.pkKind = some c.kind := by
    intro s c hc
    rw [TableSchema.primaryKeyColumn, Except.ofOption_eq_ok] at hc
    rw [TableSchema.pkKind, hc, Option.map_some]
  obtain ⟨rfl, ht₁, hvalid, hget⟩ := foldlM_migrateRow hscan hloop
  obtain ⟨hframe, hrebuilt, hrest⟩ := foldlM_rebuildIndex hrebuild
  rw [foldl_clearIndex] at hframe hrest
  have hrows₂ : t₂.rows = t₁.rows := by rw [hframe]
  have hindex₁ : t₁.index = t.index := by rw [ht₁]
  refine ⟨rows, hpk, ?_, hscan, fun k ↦ ?_, hvalid,
    fun c hc hneed ↦ hrebuilt c (List.mem_filter.mpr ⟨hc, hneed⟩), fun c hc hneed ↦ ?_,
    fun c hc ↦ ?_, fun c hc o ho ↦ ?_, rfl, ?_⟩
  · rw [hcol holdPk, hcol hnewPk, hkind.1]
  · simp only [hrows₂, hget]
  · have hnot : c ∉ new.indexedColumns.filter (needsRebuild old new) := by
      rw [List.mem_filter, hneed]
      simp
    simp only [hrest c hnot, hindex₁]
    rw [if_neg]
    simp [TableSchema.isIndexed, hc]
  · have hnot : c ∉ new.indexedColumns.filter (needsRebuild old new) :=
      fun h ↦ hc (List.mem_of_mem_filter h)
    simp only [hrest c hnot, hindex₁]
    have hiff : c ∈ old.indexedColumns.filter (!new.isIndexed ·) ↔ c ∈ old.indexedColumns := by
      simp [TableSchema.isIndexed, hc]
    by_cases hin : c ∈ old.indexedColumns
    · rw [if_pos (hiff.mpr hin), if_pos hin]
    · rw [if_neg (fun h ↦ hin (hiff.mp h)), if_neg hin]
  · have hck := Except.forM_eq_ok.mp hkinds c hc
    rw [checkKind, ho] at hck
    exact Except.guardOr_eq_ok.mp hck
  · have h₁ : SameSearch t t₁ := sameSearch_of_rows_index ht₁
    have h₂ : SameSearch t₁ t₂ := sameSearch_of_rows_index hframe
    have h₁₂ := h₁.trans h₂
    exact ⟨h₁₂.ftsColumns, h₁₂.ftsStats, h₁₂.postings, h₁₂.docs, h₁₂.annColumns, h₁₂.ann⟩

variable {scanned : List Row}

theorem Migrated.hasRow_iff (h : Migrated old new scanned t t') {row : Row} :
    t'.HasRow new row ↔ ∃ row₀, t.HasRow old row₀ ∧ row = migrated old new row₀ := by
  simp only [HasRow, ← h.pkKind, h.rows]
  constructor
  · rintro ⟨hkind, k, hk, hget⟩
    obtain ⟨values, hvalues, heq⟩ := Option.map_eq_some_iff.mp hget
    exact ⟨⟨row.pk, values⟩, ⟨hkind, k, hk, hvalues⟩, by rw [migrated, heq]⟩
  · rintro ⟨row₀, ⟨hkind, k, hk, hget⟩, rfl⟩
    exact ⟨hkind, k, hk, by rw [hget]; rfl⟩

/-- A column declared on both sides keeps its indexed value. -/
theorem Migrated.indexable_eq (h : Migrated old new scanned t t') {c : String}
    (hold : (old.column c).isSome = true) (hnew : (new.column c).isSome = true) (row : Row) :
    indexable (migrated old new row) new c = indexable row old c := by
  rw [indexable, indexable, Row.get, Row.get, h.primaryKey, migrated]
  simp only [get?_migrateValues_of_declared row.values hnew hold]

theorem Migrated.mem_rows (h : Migrated old new scanned t t')
    (hrange : t.RowsOfRange old .unbounded .unbounded scanned) (row : Row) :
    row ∈ scanned.map (migrated old new) ↔ t'.HasRow new row := by
  rw [h.hasRow_iff, List.mem_map]
  simp only [hrange.mem_unbounded, eq_comm]

theorem Migrated.rowsKeyed (h : Migrated old new scanned t t') (hi : t.RowsKeyed old) :
    t'.RowsKeyed new := by
  intro k values hget
  rw [h.rows] at hget
  obtain ⟨values₀, hget₀, rfl⟩ := Option.map_eq_some_iff.mp hget
  obtain ⟨pk, hk, hrow⟩ := hi k values₀ hget₀
  exact ⟨pk, hk, h.hasRow_iff.mpr ⟨_, hrow, rfl⟩⟩

/-- A column that is not rebuilt was indexed, and was `UNIQUE` if it is. -/
theorem of_needsRebuild_eq_false {c : String} (h : needsRebuild old new c = false) :
    c ∈ old.indexedColumns ∧ ((new.column c).any (·.unique) = true →
      (old.column c).any (·.unique) = true) := by
  rw [needsRebuild, Bool.or_eq_false_iff, Bool.and_eq_false_iff] at h
  refine ⟨List.contains_iff_mem.mp (by simpa [TableSchema.isIndexed] using h.1), fun hu ↦ ?_⟩
  rcases h.2 with hnew | hold
  · rw [hu] at hnew
    cases hnew
  · simpa using hold

section Column

variable {c : String}

/-- A column whose index is left alone, and whose values are what they were. -/
theorem Migrated.indexExact_of_kept (h : Migrated old new scanned t t') (hi : t.IndexExact old c)
    (heq : t'.index c = t.index c) (hidx : ∀ row, t.HasRow old row →
      indexable (migrated old new row) new c = indexable row old c) : t'.IndexExact new c := by
  obtain ⟨henc, hiff⟩ := indexExact_iff.mp hi
  have hentry : ∀ row, t.HasRow old row →
      entryOf new c (migrated old new row) = entryOf old c row := fun row hrow ↦ by
    rw [entryOf, entryOf, hidx row hrow]
    rfl
  refine indexExact_iff.mpr ⟨fun row hrow ↦ ?_, fun k ↦ ?_⟩
  · obtain ⟨row₀, hrow₀, rfl⟩ := h.hasRow_iff.mp hrow
    intro v hv
    rw [hidx row₀ hrow₀] at hv
    exact henc row₀ hrow₀ v hv
  · rw [heq, hiff]
    constructor
    · rintro ⟨row, hrow, hk⟩
      exact ⟨_, h.hasRow_iff.mpr ⟨row, hrow, rfl⟩, by rw [hentry row hrow, hk]⟩
    · rintro ⟨row, hrow, hk⟩
      obtain ⟨row₀, hrow₀, rfl⟩ := h.hasRow_iff.mp hrow
      exact ⟨row₀, hrow₀, by rw [← hentry row₀ hrow₀, hk]⟩

theorem Migrated.uniqueHolds_of_rebuilt (h : Migrated old new scanned t t')
    (hrange : t.RowsOfRange old .unbounded .unbounded scanned)
    (hrebuilt : Rebuilt new (scanned.map (migrated old new)) c (t'.index c))
    (hu : (new.column c).any (·.unique) = true) : t'.UniqueHolds new c :=
  fun row row' _ hrow hrow' hv hv' ↦ hrebuilt.eq_of_indexable hu ((h.mem_rows hrange row).mpr hrow)
    ((h.mem_rows hrange row').mpr hrow') hv hv'

theorem Migrated.uniqueHolds_of_kept (h : Migrated old new scanned t t')
    (hi : t.UniqueHolds old c) (hidx : ∀ row, t.HasRow old row →
      indexable (migrated old new row) new c = indexable row old c) : t'.UniqueHolds new c := by
  intro row row' v hrow hrow' hv hv'
  obtain ⟨row₀, hrow₀, rfl⟩ := h.hasRow_iff.mp hrow
  obtain ⟨row₁, hrow₁, rfl⟩ := h.hasRow_iff.mp hrow'
  rw [hidx row₀ hrow₀] at hv
  rw [hidx row₁ hrow₁] at hv'
  rw [hi row₀ row₁ v hrow₀ hrow₁ hv hv']

end Column

/-- **A migration keeps the invariant.** -/
theorem Migrated.tableInv (h : Migrated old new scanned t t') (hi : t.TableInv old) (hwf : new.Wf) :
    t'.TableInv new := by
  have hdeclOld : ∀ c ∈ old.indexedColumns, (old.column c).isSome = true := fun c hc ↦ by
    obtain ⟨col, hcol⟩ := hi.wf.indexedDeclared c hc
    rw [hcol]
    rfl
  have hdeclNew : ∀ c ∈ new.indexedColumns, (new.column c).isSome = true := fun c hc ↦ by
    obtain ⟨col, hcol⟩ := hwf.indexedDeclared c hc
    rw [hcol]
    rfl
  obtain ⟨rows, hscan, hrange⟩ := scanAllIn_spec hi.rowsKeyed hi.wf.pkDeclared
  obtain rfl : rows = scanned := by rw [h.scan, Except.ok.injEq] at hscan; exact hscan.symm
  refine ⟨hwf, h.rowsKeyed hi.rowsKeyed, ?_, fun c hc ↦ ?_, fun c hc ↦ ?_, fun c hc hu ↦ ?_⟩
  · intro row hrow
    obtain ⟨row₀, hrow₀, rfl⟩ := h.hasRow_iff.mp hrow
    refine ⟨h.valid row₀ ((hrange.mem_unbounded row₀).mpr hrow₀), ?_⟩
    obtain ⟨kind, hkind⟩ := hi.wf.pkDeclared
    obtain ⟨c, hc, -⟩ := Option.map_eq_some_iff.mp hkind
    obtain ⟨kind', hkind'⟩ := hwf.pkDeclared
    obtain ⟨c', hc', -⟩ := Option.map_eq_some_iff.mp hkind'
    rw [migrated, get?_migrateValues_of_declared]
    · rw [← h.primaryKey]
      exact (hi.rowsValid row₀ hrow₀).2
    · rw [hc']
      rfl
    · rw [← h.primaryKey, hc]
      rfl
  · by_cases hneed : needsRebuild old new c = true
    · exact (h.rebuilt c hc hneed).indexExact (h.mem_rows hrange)
    · rw [Bool.not_eq_true] at hneed
      obtain ⟨hold, -⟩ := of_needsRebuild_eq_false hneed
      exact h.indexExact_of_kept (hi.indexExact c hold) (h.kept c hc hneed) fun row _ ↦
        h.indexable_eq (hdeclOld c hold) (hdeclNew c hc) row
  · rw [h.cleared c hc]
    split
    · rfl
    · rename_i hnot
      exact hi.indexEmpty c hnot
  · obtain ⟨hindexed, hcol⟩ := hwf.uniqueIndexed c hc hu
    have hany : (new.column c.name).any (·.unique) = true := by
      rw [hcol]
      simpa using hu
    by_cases hneed : needsRebuild old new c.name = true
    · exact h.uniqueHolds_of_rebuilt hrange (h.rebuilt c.name hindexed hneed) hany
    · rw [Bool.not_eq_true] at hneed
      obtain ⟨hold, hou⟩ := of_needsRebuild_eq_false hneed
      -- the column was unique before
      obtain ⟨o, ho, hou⟩ := Option.any_eq_true .. |>.mp (hou hany)
      have hname : o.name = c.name := by simpa using List.find?_some ho
      exact h.uniqueHolds_of_kept
        (hname ▸ hi.unique o (List.mem_of_find?_eq_some ho) hou) fun row _ ↦
          h.indexable_eq (hdeclOld c.name hold) (hdeclNew c.name hindexed) row

end TableStore
