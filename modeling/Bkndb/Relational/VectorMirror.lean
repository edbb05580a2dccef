import Bkndb.Relational.Ann.Invariant
import Bkndb.Relational.Values

/-!
# Vector indexes follow the table

A vector index holds the rows whose column is a vector that can be searched for. Every write path
reports the old and the new value of the column, and the graph operations keep the invariant of
`Bkndb.Relational.Ann.Invariant`, so in every committed state the index is well formed and holds
exactly those rows.

The stored dimension and the length of a stored key are `u32` fields: the vectors and keys given to
the database have to fit them.

## Main results

* `VectorInv.applyOp`: every operation keeps the vector indexes in step with the rows.
* `RowRun.continues`: through row changes an index goes on, and never uses an id twice.
* `vector_index_invariant`: so in every committed state an index is well formed and holds exactly
  the rows with a vector that can be searched for.
-/

open PropValue Ann

namespace Ann.Hnsw

/-- The index is well formed and holds exactly the rows with an indexable value. -/
structure Follows (h : Hnsw) (value : Bytes → Option PropValue) : Prop where
  inv : h.Inv
  levels : h.LevelsOk
  mirrors : h.Mirrors value

theorem follows_freshIndex (table column : String) (options : TableStore.VectorIndexOptions) :
    (TableStore.freshIndex table column options).Follows fun _ ↦ none := by
  refine ⟨⟨fun pk id ↦ ?_, rfl, by simp [TableStore.freshIndex], ?_, ?_, ?_, ?_⟩, ?_, fun pk ↦ ?_⟩
  · simp [TableStore.freshIndex, node]
  · simp [TableStore.freshIndex]
  · intro id layer l hl
    simp [TableStore.freshIndex] at hl
  · simp [TableStore.freshIndex, node]
  · simp [TableStore.freshIndex, node]
  · intro id n hn
    simp [TableStore.freshIndex, node] at hn
  · simp [TableStore.freshIndex, Indexable]

theorem Follows.onChange {D : Type} [LinearOrder D] {g : Geometry D} {h h' : Hnsw}
    {value : Bytes → Option PropValue} {pk : Bytes} {after : Option PropValue}
    (hf : h.Follows value) (hfits : Fits after) (hc : h.onChange g pk (value pk) after = .ok h') :
    h'.Follows (Function.update value pk after) ∧ h.Extends h' := by
  obtain ⟨hi, hext, hm⟩ := onChange_spec g hf.inv hf.mirrors hfits hc
  exact ⟨⟨hi, hext.levels hf.levels, hm⟩, hext⟩

theorem Follows.add {D : Type} [LinearOrder D] {g : Geometry D} {h h' : Hnsw}
    {value : Bytes → Option PropValue} {pk : Bytes} {after : PropValue} {v : List F32}
    (hf : h.Follows value) (hnone : value pk = none) (hv : vectorOf after = some v)
    (hfits : Fits (some after)) (hc : h.add g pk v = .ok h') :
    h'.Follows (Function.update value pk (some after)) := by
  refine (hf.onChange (g := g) hfits ?_).1
  rw [Hnsw.onChange, hnone]
  simp only [eqvOption, Bool.false_eq_true, if_false, Option.isSome_none, Option.bind_some, hv]
  exact hc

theorem Inv.size_pks {h : Hnsw} (hi : h.Inv) : h.pks.size = h.nodes.size := by
  have hinj : (h.pks.entries.map Prod.snd).Nodup := by
    refine List.Nodup.map_on (fun a ha b hb hab ↦ ?_) h.pks.entries_nodup
    obtain ⟨n, hn, hpk⟩ := (hi.pks a.1 a.2).mp (OrdMap.mem_entries.mp ha)
    obtain ⟨n', hn', hpk'⟩ := (hi.pks b.1 b.2).mp (OrdMap.mem_entries.mp hb)
    rw [hab, hn', Option.some_inj] at hn
    exact Prod.ext (by rw [← hpk, ← hpk', hn]) hab
  have hperm : (h.pks.entries.map Prod.snd).Perm h.nodes.keys := by
    refine (List.perm_ext_iff_of_nodup hinj h.nodes.keys_nodup).mpr fun id ↦ ?_
    rw [OrdMap.mem_keys, List.mem_map]
    constructor
    · rintro ⟨⟨pk, id'⟩, he, rfl⟩
      obtain ⟨n, hn, -⟩ := (hi.pks pk id').mp (OrdMap.mem_entries.mp he)
      exact ⟨n, hn⟩
    · rintro ⟨n, hn⟩
      exact ⟨(n.pk, id), OrdMap.mem_entries.mpr ((hi.pks n.pk id).mpr ⟨n, hn, rfl⟩), rfl⟩
  have hlen := hperm.length_eq
  rwa [List.length_map, OrdMap.keys, List.length_map] at hlen

end Ann.Hnsw

namespace TableStore

variable {t t' : TableStore} {column : String}

/-! ## The invariant of a table's vector indexes -/

/-- The value of a row in a column. -/
def columnValue (t : TableStore) (column : String) (k : Bytes) : Option PropValue :=
  (t.rows.get? k).bind (·.get? column)

/-- The listed columns have an index that follows their values, the others have none. Only a
registered table lists columns, and they are vector columns of its schema. -/
structure VectorInv (t : TableStore) : Prop where
  nodup : t.annColumns.Nodup
  follows : ∀ c ∈ t.annColumns, ∃ h, t.ann c = some h ∧ h.Follows (t.columnValue c)
  unlisted : ∀ c, c ∉ t.annColumns → t.ann c = none
  declared : ∀ c ∈ t.annColumns, t.schema.any (isVectorColumn · c) = true

/-- The indexes of the later table continue those of the earlier one. -/
def Continues (t t' : TableStore) : Prop :=
  t'.annColumns = t.annColumns ∧ ∀ c ∈ t.annColumns, ∀ h, t.ann c = some h →
    ∃ h', t'.ann c = some h' ∧ h.Extends h'

theorem Continues.refl (t : TableStore) : Continues t t :=
  ⟨rfl, fun _ _ h hh ↦ ⟨h, hh, Hnsw.Extends.refl h⟩⟩

theorem Continues.trans {t'' : TableStore} (a : Continues t t') (b : Continues t' t'') :
    Continues t t'' := by
  refine ⟨b.1.trans a.1, fun c hc h hh ↦ ?_⟩
  obtain ⟨h', hh', hext⟩ := a.2 c hc h hh
  obtain ⟨h'', hh'', hext'⟩ := b.2 c (a.1 ▸ hc) h' hh'
  exact ⟨h'', hh'', hext.trans hext'⟩

theorem vectorInv_fresh : ({} : TableStore).VectorInv :=
  ⟨List.nodup_nil, by simp, fun _ _ ↦ rfl, by simp⟩

theorem VectorInv.congr (hi : t.VectorInv) (hrows : t'.rows = t.rows)
    (hschema : t'.schema = t.schema) (hcolumns : t'.annColumns = t.annColumns)
    (hann : t'.ann = t.ann) : t'.VectorInv := by
  refine ⟨hcolumns ▸ hi.nodup, fun c hc ↦ ?_, fun c hc ↦ ?_, fun c hc ↦ ?_⟩ <;>
    rw [hcolumns] at hc
  · obtain ⟨h, hh, hf⟩ := hi.follows c hc
    refine ⟨h, by rw [hann, hh], ?_⟩
    have hvalue : t'.columnValue c = t.columnValue c := by
      funext k
      rw [columnValue, columnValue, hrows]
    rw [hvalue]
    exact hf
  · rw [hann]
    exact hi.unlisted c hc
  · rw [hschema]
    exact hi.declared c hc

theorem VectorInv.fulltextOnly (hi : t.VectorInv) (h : FulltextOnly t t') : t'.VectorInv :=
  hi.congr (by rw [h]) (by rw [h]) (by rw [h]) (by rw [h])

/-! ## Row changes -/

/-- A value that fits the `u32` fields of a vector index: as a vector, and as a key. -/
structure FitsIndex (v : PropValue) : Prop where
  vector : Hnsw.Fits (some v)
  key : ∀ k, sortableKey v = some k → k.length < 2 ^ 32

theorem fitsIndex_int (i : Int64) : FitsIndex (.int i) := by
  refine ⟨fun v hv ↦ by simp [vectorOf] at hv, fun k hk ↦ ?_⟩
  obtain rfl : Bytes.be 8 (flipSign i).toNat = k := by simpa [sortableKey] using hk
  rw [Bytes.length_be]
  norm_num

variable {D : Type} [LinearOrder D] {g : Geometry D}

theorem annColumnChange_follows {table : String} {k : Bytes} {old new : Option Properties}
    {h : Hnsw} {value : Bytes → Option PropValue} (hh : t.ann column = some h)
    (hf : h.Follows value) (hold : value k = old.bind (·.get? column))
    (hfits : Hnsw.Fits (new.bind (·.get? column)))
    (hc : annColumnChange g table k old new t column = .ok t') :
    ∃ h', t' = { t with ann := Function.update t.ann column (some h') } ∧ h.Extends h' ∧
      h'.Follows (Function.update value k (new.bind (·.get? column))) := by
  rw [annColumnChange] at hc
  split at hc
  · rename_i heqv
    obtain rfl := Except.ok.inj hc
    refine ⟨h, ?_, Hnsw.Extends.refl h, ?_⟩
    · rw [← hh, Function.update_eq_self]
    · refine (hf.onChange (g := g) hfits ?_).1
      rw [Hnsw.onChange, hold, if_pos heqv]
      rfl
  · simp only [Except.bind_eq_ok, Except.ofOption_eq_ok] at hc
    obtain ⟨h₁, hh₁, h', hchange, hc⟩ := hc
    obtain rfl : h = h₁ := by rw [hh, Option.some_inj] at hh₁; exact hh₁
    obtain rfl := Except.ok.inj hc
    rw [← hold] at hchange
    obtain ⟨hf', hext⟩ := hf.onChange hfits hchange
    exact ⟨h', rfl, hext, hf'⟩

variable [Unicode]

/-- **A row change keeps the vector indexes in step.** -/
theorem RowChange.vectorInv {schema : TableSchema} {pk : PropValue} {k : Bytes}
    {old new : Option Properties} (h : RowChange g schema pk k old new t t') (hi : t.VectorInv)
    (hfits : ∀ n, new = some n → AllOf FitsIndex n) : t'.VectorInv ∧ Continues t t' := by
  obtain ⟨hschema, -, -, hcolumns⟩ := h.frame
  obtain ⟨s, hloop, -, -, -, hsame, hann⟩ := onRowChange_eq_ok h.key h.search
  have hnew : ∀ c, Hnsw.Fits (new.bind (·.get? c)) := by
    intro c v hv
    cases new with
    | none => simp at hv
    | some n =>
      cases hget : n.get? c with
      | none => simp [hget] at hv
      | some w => exact (hfits n rfl c w hget).vector v (by simpa [hget] using hv)
  -- the columns done follow the new row, the others still the old one
  have hend := Except.foldlM_induction (fun done s ↦
    (∀ c ∈ t.annColumns, ∃ h h', t.ann c = some h ∧ s.ann c = some h' ∧ h.Extends h' ∧
      h'.Follows (if c ∈ done then Function.update (t.columnValue c) k (new.bind (·.get? c))
        else t.columnValue c)) ∧ ∀ c, c ∉ t.annColumns → s.ann c = t.ann c) hloop
    ⟨fun c hc ↦ by
      obtain ⟨h, hh, hf⟩ := hi.follows c hc
      exact ⟨h, h, hh, hh, Hnsw.Extends.refl h, by simpa using hf⟩, fun _ _ ↦ rfl⟩
    fun done c s₁ s₂ hpre hP hstep ↦ by
      have hc : c ∈ t.annColumns := hpre.subset (by simp)
      have hnot : c ∉ done := fun hmem ↦ by
        have hnodup := hi.nodup.sublist hpre.sublist
        rw [List.nodup_append] at hnodup
        exact hnodup.2.2 c hmem c (by simp) rfl
      obtain ⟨h₀, h₁, hh₀, hh₁, hext₁, hf₁⟩ := hP.1 c hc
      rw [if_neg hnot] at hf₁
      obtain ⟨h₂, rfl, hext₂, hf₂⟩ := annColumnChange_follows hh₁ hf₁
        (by rw [columnValue, h.old_eq]) (hnew c) hstep
      refine ⟨fun c' hc' ↦ ?_, fun c' hc' ↦ ?_⟩
      · by_cases hcc : c' = c
        · subst hcc
          exact ⟨h₀, h₂, hh₀, Function.update_self .., hext₁.trans hext₂, by simpa using hf₂⟩
        · obtain ⟨h, h', hh, hh', hext, hf⟩ := hP.1 c' hc'
          exact ⟨h, h', hh, (Function.update_of_ne hcc ..).trans hh', hext, by simpa [hcc] using hf⟩
      · have hcc : c' ≠ c := fun heq ↦ hc' (heq ▸ hc)
        exact (Function.update_of_ne hcc ..).trans (hP.2 c' hc')
  have hvalue : ∀ c, t'.columnValue c =
      Function.update (t.columnValue c) k (new.bind (·.get? c)) := fun c ↦ by
    funext k'
    by_cases hkk : k' = k
    · rw [hkk, Function.update_self, columnValue, h.get?_rows, if_pos rfl]
    · rw [Function.update_of_ne hkk, columnValue, columnValue, h.get?_rows, if_neg hkk]
  refine ⟨⟨hcolumns ▸ hi.nodup, fun c hc ↦ ?_, fun c hc ↦ ?_, fun c hc ↦ ?_⟩, hcolumns,
    fun c hc h hh ↦ ?_⟩
  · rw [hcolumns] at hc
    obtain ⟨h₀, h', -, hh', -, hf⟩ := hend.1 c hc
    rw [if_pos hc] at hf
    exact ⟨h', by rw [hann, hh'], hvalue c ▸ hf⟩
  · rw [hcolumns] at hc
    rw [hann, hend.2 c hc]
    exact hi.unlisted c hc
  · rw [hcolumns] at hc
    rw [hschema]
    exact hi.declared c hc
  · obtain ⟨h₀, h', hh₀, hh', hext, -⟩ := hend.1 c hc
    obtain rfl : h = h₀ := by rw [hh, Option.some_inj] at hh₀; exact hh₀
    exact ⟨h', by rw [hann, hh'], hext⟩

theorem RowStep.vectorInv {schema : TableSchema} (h : RowStep g FitsIndex schema t t')
    (hholds : t.HoldsOf FitsIndex) (hi : t.VectorInv) : t'.VectorInv ∧ Continues t t' := by
  have hholds' := h.holdsOf hholds
  cases h with
  | @row pk k old new t t' hchange _ =>
    refine hchange.vectorInv hi fun n hn ↦ (hholds'.rows k n ?_).values
    rw [hchange.get?_rows, if_pos rfl, hn]
  | counter n => exact ⟨hi.congr rfl rfl rfl rfl, Continues.refl _⟩

theorem vectorInv_of_rowSteps {schema : TableSchema} {s : TableStore}
    (hholds : s.HoldsOf FitsIndex) (hi : s.VectorInv) (h : RowSteps g FitsIndex schema s t) :
    t.VectorInv ∧ Continues s t := by
  have hend : t.HoldsOf FitsIndex ∧ t.VectorInv ∧ Continues s t := by
    induction h with
    | refl => exact ⟨hholds, hi, Continues.refl s⟩
    | tail _ hstep ih =>
      obtain ⟨hinv, hcont⟩ := hstep.vectorInv ih.1 ih.2.1
      exact ⟨hstep.holdsOf ih.1, hinv, ih.2.2.trans hcont⟩
  exact hend.2

/-! ## Catalog operations -/

omit [Unicode] in
theorem vectorInv_annRetainValid {schema : Option TableSchema} (hschema : t.schema = schema)
    (hnodup : t.annColumns.Nodup)
    (hfollows : ∀ c ∈ t.annColumns, schema.any (isVectorColumn · c) = true →
      ∃ h, t.ann c = some h ∧ h.Follows (t.columnValue c))
    (hunlisted : ∀ c, c ∉ t.annColumns → t.ann c = none) :
    (t.annRetainValid schema).VectorInv := by
  rw [annRetainValid]
  split
  · rename_i hgone
    have hall : ∀ c ∈ t.annColumns, schema.any (isVectorColumn · c) = true := by
      simpa [List.filter_eq_nil_iff] using hgone
    exact ⟨hnodup, fun c hc ↦ hfollows c hc (hall c hc), hunlisted,
      fun c hc ↦ hschema ▸ hall c hc⟩
  · refine ⟨hnodup.filter _, fun c hc ↦ ?_, fun c hc ↦ ?_, fun c hc ↦ ?_⟩
    · obtain ⟨hc, hvector⟩ := List.mem_filter.mp hc
      have hnot : c ∉ t.annColumns.filter fun c ↦ !schema.any (isVectorColumn · c) := by
        simp [hvector]
      simp only [hnot, if_false]
      exact hfollows c hc hvector
    · rw [List.mem_filter, not_and] at hc
      simp only [List.mem_filter]
      by_cases hin : c ∈ t.annColumns
      · have hvector : schema.any (isVectorColumn · c) = false := by simpa using hc hin
        simp [hin, hvector]
      · simpa [hin] using hunlisted c hin
    · show t.schema.any (isVectorColumn · c) = true
      rw [hschema]
      exact (List.mem_filter.mp hc).2

omit [Unicode] in
theorem VectorInv.annColumns_of_schema (hi : t.VectorInv) (h : t.schema = none) :
    t.annColumns = [] := by
  refine List.eq_nil_iff_forall_not_mem.mpr fun c hc ↦ ?_
  have hdecl := hi.declared c hc
  rw [h] at hdecl
  simp at hdecl

omit [Unicode] in
theorem VectorInv.adoptIn {schema : TableSchema} (hi : t.VectorInv) (hnone : t.schema = none)
    (h : t.adoptIn schema = .ok t') : t'.VectorInv := by
  have hnil := hi.annColumns_of_schema hnone
  rw [adoptIn_frame h]
  refine ⟨hi.nodup, fun c hc ↦ ?_, hi.unlisted, fun c hc ↦ ?_⟩ <;>
    exact absurd (hnil ▸ hc) List.not_mem_nil

omit [Unicode] in
theorem Migrated.columnValue {old new : TableSchema} {scanned : List Row}
    (h : Migrated old new scanned t t') {c : String} (hold : isVectorColumn old c = true)
    (hnew : isVectorColumn new c = true) : t'.columnValue c = t.columnValue c := by
  have hdecl : ∀ {s : TableSchema}, isVectorColumn s c = true → (s.column c).isSome = true := by
    intro s hs
    rw [isVectorColumn, Bool.and_eq_true, Option.any_eq_true] at hs
    obtain ⟨-, col, hcol, -⟩ := hs
    rw [hcol]
    rfl
  funext k
  rw [TableStore.columnValue, TableStore.columnValue, h.rows]
  cases t.rows.get? k with
  | none => rfl
  | some values =>
    simp only [Option.map_some, Option.bind_some]
    rw [get?_migrateValues_of_declared values (hdecl hnew) (hdecl hold)]

omit [Unicode] in
/-- **Migration** keeps the invariant. -/
theorem VectorInv.ensureTableIn {schema : TableSchema} (hi : t.VectorInv)
    (h : t.ensureTableIn schema = .ok t') : t'.VectorInv := by
  rcases ensureTableIn_eq_ok h with ⟨hnone, h⟩ | ⟨old, -, -, rfl⟩ | ⟨old, s, hold, hmig, rfl⟩
  · exact hi.adoptIn hnone h
  · exact hi
  · obtain ⟨scanned, hm⟩ := migrateIn_migrated hmig
    have hfts := s.ftsRetainValid_fulltextOnly (some schema)
    refine vectorInv_annRetainValid (by rw [hfts]; exact hm.schema) ?_ (fun c hc hvector ↦ ?_)
      fun c hc ↦ ?_
    · rw [hfts]
      show s.annColumns.Nodup
      rw [hm.search.annColumns]
      exact hi.nodup
    · have hc' : c ∈ t.annColumns := by
        rw [hfts] at hc
        exact hm.search.annColumns ▸ hc
      obtain ⟨h', hh', hf⟩ := hi.follows c hc'
      have hdecl := hi.declared c hc'
      rw [hold, Option.any_some] at hdecl
      refine ⟨h', ?_, ?_⟩
      · rw [hfts]
        exact (congrFun hm.search.ann c).trans hh'
      · have hvalue : (s.ftsRetainValid (some schema)).columnValue c = t.columnValue c := by
          rw [← hm.columnValue hdecl hvector]
          funext k
          rw [TableStore.columnValue, hfts]
          rfl
        rw [hvalue]
        exact hf
    · rw [hfts] at hc ⊢
      exact (congrFun hm.search.ann c).trans (hi.unlisted c (hm.search.annColumns ▸ hc))

omit [Unicode] in
theorem VectorInv.dropTableIn {name : String} {b : Bool} (hi : t.VectorInv)
    (h : t.dropTableIn name = .ok (b, t')) : t'.VectorInv := by
  rcases dropTableIn_eq_ok h with ⟨-, rfl⟩ | ⟨schema, -, rfl⟩
  · exact hi
  · have hfts := ftsRetainValid_fulltextOnly ({ t with
      rows := ∅
      index := fun c ↦ if c ∈ schema.indexedColumns then ∅ else t.index c
      counter := none
      schema := none } : TableStore) none
    refine vectorInv_annRetainValid (by rw [hfts]) (by rw [hfts]; exact hi.nodup)
      (fun c _ hvector ↦ by simp at hvector) fun c hc ↦ ?_
    rw [hfts] at hc ⊢
    exact hi.unlisted c hc

/-! ## Creating and dropping an index -/

omit [Unicode] in
theorem createVectorIndexIn_eq_ok {table : String} {options : VectorIndexOptions} {b : Bool}
    (h : t.createVectorIndexIn g table column options = .ok (b, t')) :
    t' = t ∨ (column ∉ t.annColumns ∧ t.schema.any (isVectorColumn · column) = true ∧
      ∃ schema rows i, t.scanAllIn schema = .ok rows ∧
        rows.foldlM (addRow g column) (freshIndex table column options) = .ok i ∧
        t' = { t with
          annColumns := t.annColumns ++ [column]
          ann := Function.update t.ann column (some i) }) := by
  simp only [createVectorIndexIn, Except.bind_eq_ok, Except.ofOption_eq_ok,
    Except.guardOr_eq_ok] at h
  obtain ⟨-, -, schema, hschema, ⟨⟩, -, ⟨⟩, hvector, ⟨⟩, -, h⟩ := h
  split at h
  · exact .inl (congrArg Prod.snd (Except.ok.inj h)).symm
  · rename_i hnot
    simp only [Except.bind_eq_ok] at h
    obtain ⟨rows, hrows, i, hloop, h⟩ := h
    refine .inr ⟨hnot, ?_, schema, rows, i, hrows, hloop,
      (congrArg Prod.snd (Except.ok.inj h)).symm⟩
    rw [hschema, Option.any_some]
    exact hvector

omit [Unicode] in
/-- **Backfill** indexes the vectors of the rows. -/
theorem follows_of_backfill {table : String} {options : VectorIndexOptions} {schema : TableSchema}
    {rows : List Row} {i : Hnsw} (hholds : t.HoldsOf FitsIndex)
    (hscan : t.scanAllIn schema = .ok rows)
    (h : rows.foldlM (addRow g column) (freshIndex table column options) = .ok i) :
    i.Follows (t.columnValue column) := by
  obtain ⟨kind, -, hrows⟩ := scanAllIn_eq_ok hscan
  -- the index follows the entries read so far
  have hend := Except.foldlM_forall₂ (fun done i ↦ ∀ m : OrdMap Bytes Properties,
    m.entries = done → Hnsw.Follows i fun k ↦ (m.get? k).bind (·.get? column)) hrows h
    (fun m hnil ↦ by
      rw [OrdMap.eq_empty_of_entries hnil]
      exact Hnsw.follows_freshIndex table column options)
    fun done row e i i' hpre hrow hP hstep m hm ↦ by
      obtain ⟨k, values⟩ := e
      obtain ⟨hdecode, hvalues⟩ := hrow
      have hsorted : done.Pairwise fun a b ↦ a.1 < b.1 :=
        (t.rows.sorted.sublist hpre.sublist).sublist (List.sublist_append_left ..)
      obtain ⟨hnone, rfl⟩ := OrdMap.eq_insert_of_entries (m := ⟨done, hsorted⟩) hm
      have hbefore := hP ⟨done, hsorted⟩ rfl
      have hupdate : (fun k' ↦ ((OrdMap.insert ⟨done, hsorted⟩ k values).get? k').bind
          (·.get? column)) = Function.update
          (fun k' ↦ ((OrdMap.get? ⟨done, hsorted⟩ k').bind (·.get? column))) k
          (values.get? column) := by
        funext k'
        by_cases hkk : k' = k
        · simp [hkk]
        · simp [hkk, OrdMap.get?_insert_of_ne _ _ hkk]
      have hstored : t.rows.get? k = some values :=
        OrdMap.mem_entries.mp (hpre.subset (by simp))
      rw [hupdate]
      rw [addRow, hvalues] at hstep
      cases hvalue : values.get? column with
      | none =>
        rw [hvalue] at hstep
        obtain rfl := Except.ok.inj hstep
        rw [Function.update_eq_self_iff.mpr (by rw [hnone]; rfl)]
        exact hbefore
      | some w =>
        have hfits := ((hholds.rows k values hstored).values column w hvalue).vector
        rw [hvalue, Option.bind_some] at hstep
        cases hv : vectorOf w with
        | some v =>
          rw [hv] at hstep
          simp only [Except.bind_eq_ok, sortableEncode_eq_ok] at hstep
          obtain ⟨k', hk', hstep⟩ := hstep
          obtain rfl := sortableKey_of_decodeSortable hdecode hk'
          exact hbefore.add (by rw [hnone]; rfl) hv hfits hstep
        | none =>
          rw [hv] at hstep
          obtain rfl := Except.ok.inj hstep
          refine ⟨hbefore.inv, hbefore.levels, fun pk ↦ ?_⟩
          rw [hbefore.mirrors pk]
          by_cases hpk : pk = k
          · subst hpk
            rw [Function.update_self]
            simp [Hnsw.Indexable, hv, hnone]
          · rw [Function.update_of_ne hpk]
  exact hend t.rows rfl

omit [Unicode] in
theorem VectorInv.createVectorIndexIn {table : String} {options : VectorIndexOptions} {b : Bool}
    (hi : t.VectorInv) (hholds : t.HoldsOf FitsIndex)
    (h : t.createVectorIndexIn g table column options = .ok (b, t')) : t'.VectorInv := by
  rcases createVectorIndexIn_eq_ok h with rfl | ⟨hnot, hvector, schema, rows, i, hscan, hloop, rfl⟩
  · exact hi
  · refine ⟨?_, fun c hc ↦ ?_, fun c hc ↦ ?_, fun c hc ↦ ?_⟩
    · rw [List.nodup_append]
      exact ⟨hi.nodup, List.nodup_singleton _, fun a ha b hb ↦ by
        rw [List.mem_singleton.mp hb]
        exact fun hab ↦ hnot (hab ▸ ha)⟩
    · by_cases hcc : c = column
      · subst hcc
        have hf : i.Follows (t.columnValue c) := follows_of_backfill hholds hscan hloop
        exact ⟨i, Function.update_self .., hf⟩
      · obtain ⟨h', hh', hf⟩ := hi.follows c
          ((List.mem_append.mp hc).resolve_right (by simpa using hcc))
        exact ⟨h', (Function.update_of_ne hcc ..).trans hh', hf⟩
    · rw [List.mem_append, List.mem_singleton, not_or] at hc
      exact (Function.update_of_ne hc.2 ..).trans (hi.unlisted c hc.1)
    · rcases List.mem_append.mp hc with hc | hc
      · exact hi.declared c hc
      · rw [List.mem_singleton.mp hc]
        exact hvector

omit [Unicode] in
theorem VectorInv.dropVectorIndexIn (hi : t.VectorInv) (column : String) :
    (t.dropVectorIndexIn column).2.VectorInv := by
  rw [TableStore.dropVectorIndexIn]
  split
  · have hmem : ∀ {c}, c ∈ t.annColumns.erase column ↔ c ≠ column ∧ c ∈ t.annColumns :=
      hi.nodup.mem_erase_iff
    refine ⟨hi.nodup.erase _, fun c hc ↦ ?_, fun c hc ↦ ?_, fun c hc ↦ ?_⟩
    · obtain ⟨hne, hc⟩ := hmem.mp hc
      obtain ⟨h, hh, hf⟩ := hi.follows c hc
      exact ⟨h, (Function.update_of_ne hne ..).trans hh, hf⟩
    · by_cases hcc : c = column
      · subst hcc
        exact Function.update_self ..
      · exact (Function.update_of_ne hcc ..).trans
          (hi.unlisted c fun hin ↦ hc (hmem.mpr ⟨hcc, hin⟩))
    · exact hi.declared c (hmem.mp hc).2
  · exact hi

/-! ## Runs

A dropped index may be created again, with ids from the beginning. That ids are not used twice is
therefore a statement about runs in which only rows change. -/

/-- **Every operation keeps the vector indexes in step.** -/
theorem VectorInv.applyOp (hi : t.VectorInv) (hholds : t.HoldsOf FitsIndex) {op : DbOp}
    (hop : op.Gives FitsIndex) (h : t.applyOp g op = .ok t') : t'.VectorInv := by
  cases op with
  | rows ref op =>
    obtain ⟨schema, -, hsteps⟩ := rowSteps_of_applyOp fitsIndex_int hop hholds h
    exact (vectorInv_of_rowSteps hholds hi hsteps).1
  | createTable schema =>
    obtain ⟨⟨b, s⟩, hs, rfl⟩ := Except.map_eq_ok.mp h
    rcases createTableIn_eq_ok hs with ⟨hnone, hadopt⟩ | ⟨-, rfl⟩
    · exact hi.adoptIn hnone hadopt
    · exact hi
  | ensureTable schema => exact hi.ensureTableIn h
  | dropTable name =>
    obtain ⟨⟨b, s⟩, hs, rfl⟩ := Except.map_eq_ok.mp h
    exact hi.dropTableIn hs
  | createIndex table column =>
    obtain ⟨old, schema, -, -, h⟩ := createIndex_eq_ok h
    exact hi.ensureTableIn h
  | dropIndex table column =>
    obtain ⟨old, schema, -, -, h⟩ := dropIndex_eq_ok h
    exact hi.ensureTableIn h
  | createFulltextIndex table column =>
    obtain ⟨⟨b, s⟩, hs, rfl⟩ := Except.map_eq_ok.mp h
    exact hi.fulltextOnly (createFulltextIndexIn_fulltextOnly hs)
  | dropFulltextIndex table column =>
    obtain rfl := Except.ok.inj h
    exact hi.fulltextOnly (t.dropFulltextIndexIn_fulltextOnly column)
  | createVectorIndex table column options =>
    obtain ⟨⟨b, s⟩, hs, rfl⟩ := Except.map_eq_ok.mp h
    exact hi.createVectorIndexIn hholds hs
  | dropVectorIndex table column =>
    obtain rfl := Except.ok.inj h
    exact hi.dropVectorIndexIn column

end TableStore

namespace RelRun

variable [Unicode] {D : Type} [LinearOrder D] {g : Geometry D}

/-- Later committed states of a database in which only rows of the table `n` changed. -/
inductive RowRun (g : Geometry D) (P : DbOp → Prop) (n : String) : RelRun → RelRun → Prop
  | refl (r : RelRun) : RowRun g P n r r
  | commit {r r' r'' : RelRun} {ops : List DbOp} : RowRun g P n r r' →
    (∀ op ∈ ops, P op ∧ checkIdentifier "table" op.table = .ok () ∧
      (op.table = n → ∃ ref rowOp, op = .rows ref rowOp)) →
    ops.foldlM (apply g) r' = .ok r'' → RowRun g P n r r''

theorem RowRun.reachable {P : DbOp → Prop} {n : String} {r r' : RelRun} (h : RowRun g P n r r')
    (hr : Reachable g P r) : Reachable g P r' := by
  induction h with
  | refl => exact hr
  | commit _ hops hrun ih => exact ih.commit (fun op hop ↦ ⟨(hops op hop).1, (hops op hop).2.1⟩) hrun

/-- Each committed table keeps its vector indexes in step. -/
theorem Reachable.vectorInv {r : RelRun} (h : Reachable g (DbOp.Gives TableStore.FitsIndex) r)
    (n : String) : (r.store n).VectorInv ∧ (r.store n).HoldsOf TableStore.FitsIndex :=
  h.induction (fun t _ ↦ t.VectorInv ∧ t.HoldsOf TableStore.FitsIndex)
    ⟨TableStore.vectorInv_fresh, TableStore.holdsOf_fresh⟩
    (fun _ _ _ _ hop hi hstep ↦
      ⟨hi.1.applyOp hi.2 hop hstep, hi.2.applyOp TableStore.fitsIndex_int hop hstep⟩) n

/-- **The indexes of a table continue through row changes.** -/
theorem RowRun.continues {n : String} {r r' : RelRun}
    (h : RowRun g (DbOp.Gives TableStore.FitsIndex) n r r')
    (hr : Reachable g (DbOp.Gives TableStore.FitsIndex) r) :
    TableStore.Continues (r.store n) (r'.store n) := by
  induction h with
  | refl => exact TableStore.Continues.refl _
  | @commit r' r'' ops hrun hops hfold ih =>
    refine ih.trans ?_
    have hstart := (hrun.reachable hr).vectorInv n
    refine (Except.foldlM_invariant (fun s ↦ ((s.store n).VectorInv ∧
      (s.store n).HoldsOf TableStore.FitsIndex) ∧
      TableStore.Continues (r'.store n) (s.store n)) hfold
      ⟨hstart, TableStore.Continues.refl _⟩ fun op hop s s' hs hstep ↦ ?_).2
    obtain ⟨hgives, -, hrow⟩ := hops op hop
    obtain ⟨t', ht', hstore, -⟩ := apply_eq_ok hstep
    rw [hstore]
    by_cases hn : n = op.table
    · subst hn
      obtain ⟨ref, rowOp, rfl⟩ := hrow rfl
      rw [Function.update_self]
      obtain ⟨schema, -, hsteps⟩ :=
        TableStore.rowSteps_of_applyOp TableStore.fitsIndex_int hgives hs.1.2 ht'
      obtain ⟨hinv, hcont⟩ := TableStore.vectorInv_of_rowSteps hs.1.2 hs.1.1 hsteps
      exact ⟨⟨hinv, TableStore.holdsOf_of_rowSteps hs.1.2 hsteps⟩, hs.2.trans hcont⟩
    · rw [Function.update_of_ne hn]
      exact hs

end RelRun

namespace TableStore

/-- What is promised of the vector index of a column. -/
structure VectorInvariant (t : TableStore) (column : String) (h : Hnsw) : Prop where
  /-- Primary keys and nodes are in bijection, each node storing its key. -/
  bijection : ∀ pk id, h.pks.get? pk = some id ↔ ∃ n, h.node id = some n ∧ n.pk = pk
  /-- The rows in the index are those with a non-empty vector that can be searched for. -/
  indexed : ∀ pk, (h.pks.get? pk).isSome = true ↔ ∃ values value v, t.rows.get? pk = some values ∧
    values.get? column = some value ∧ vectorOf value = some v ∧ v ≠ [] ∧
    (prepare h.annMeta.metric v).isSome = true
  count : h.annMeta.count = h.pks.size
  entryNone : h.annMeta.entry = none ↔ h.annMeta.count = 0
  /-- The entry point is a live node of the top level. -/
  entrySome : ∀ e, h.annMeta.entry = some e →
    ∃ n, h.node e = some n ∧ n.level = h.annMeta.maxLevel
  /-- Link records belong to live nodes that reach their layer, are bounded, without duplicates and
  self links, and their live targets reach the layer. -/
  links : ∀ id layer l, h.links.get? (toLex (id, layer)) = some l →
    (∃ n, h.node id = some n ∧ layer ≤ n.level) ∧ l.length ≤ h.cap layer ∧ l.Nodup ∧ id ∉ l ∧
      ∀ target ∈ l, ∀ n, h.node target = some n → layer ≤ n.level
  /-- Live ids were handed out. -/
  ids : ∀ id n, h.node id = some n → id < h.annMeta.nextId
  dim : ∀ id n, h.node id = some n → n.vector.length = h.annMeta.dim
  /-- The stored record of a node reads back. -/
  stored : ∀ id n, h.node id = some n → decodeNode (encodeNode n) = .ok n

theorem VectorInv.vectorInvariant {t : TableStore} (hi : t.VectorInv)
    (hholds : t.HoldsOf FitsIndex) {column : String} {h : Hnsw} (hc : column ∈ t.annColumns)
    (hh : t.ann column = some h) : t.VectorInvariant column h := by
  obtain ⟨h', hh', hf⟩ := hi.follows column hc
  obtain rfl : h = h' := by rw [hh, Option.some_inj] at hh'; exact hh'
  have hindexed : ∀ pk, (h.pks.get? pk).isSome = true ↔ ∃ values value v,
      t.rows.get? pk = some values ∧ values.get? column = some value ∧ vectorOf value = some v ∧
      v ≠ [] ∧ (prepare h.annMeta.metric v).isSome = true := by
    intro pk
    rw [hf.mirrors pk, Hnsw.Indexable, columnValue]
    simp only [Option.bind_eq_some_iff, Hnsw.Accepts]
    constructor
    · rintro ⟨v, ⟨value, ⟨values, hrow, hvalue⟩, hv⟩, hne, hprep⟩
      exact ⟨values, value, v, hrow, hvalue, hv, hne, hprep⟩
    · rintro ⟨values, value, v, hrow, hvalue, hv, hne, hprep⟩
      exact ⟨v, ⟨value, ⟨values, hrow, hvalue⟩, hv⟩, hne, hprep⟩
  refine ⟨hf.inv.pks, hindexed, ?_, hf.inv.entry_none, hf.inv.entry_some, fun id layer l hl ↦ ?_,
    hf.inv.lt, hf.inv.dim, fun id n hn ↦ ?_⟩
  · rw [hf.inv.count, hf.inv.size_pks]
  · obtain ⟨hb, hr⟩ := hf.inv.links id layer l hl
    exact ⟨hr, hb.cap, hb.nodup, hb.self, hb.level⟩
  · -- the node's key is the key of a row
    have hpk : (h.pks.get? n.pk).isSome = true := by
      rw [(hf.inv.pks n.pk id).mpr ⟨n, hn, rfl⟩]
      rfl
    obtain ⟨values, -, -, hrow, -⟩ := (hindexed n.pk).mp hpk
    obtain ⟨pk, hfits, hkey⟩ := (hholds.rows n.pk values hrow).key
    have hlevel : n.level ≤ Ann.maxLevel := hf.levels id n hn
    exact decodeNode_encodeNode (lt_of_le_of_lt hlevel (by decide)) (hfits.key n.pk hkey)

variable [Unicode] {D : Type} [LinearOrder D] {g : Geometry D}

/-- **The vector index invariant.** Through any run of row changes an index stays well formed, holds
exactly the rows with a vector that can be searched for, never reuses an id, and never loses its
entry point; as long as the vectors given to the database have fewer than `2 ^ 32` components and its
keys fewer than `2 ^ 32` bytes. -/
theorem vector_index_invariant {r r' : RelRun} {n column : String}
    (hr : RelRun.Reachable g (DbOp.Gives FitsIndex) r)
    (hrun : RelRun.RowRun g (DbOp.Gives FitsIndex) n r r')
    (hc : column ∈ (r.store n).annColumns) :
    ∃ h h', (r.store n).ann column = some h ∧ (r'.store n).ann column = some h' ∧
      (r'.store n).VectorInvariant column h' ∧ h.Extends h' ∧
      (∀ q ef, ∃ found, h'.search g q ef = .ok found) ∧
      ∀ pk before after e, Hnsw.Fits after → h'.onChange g pk before after = .error e →
        (∃ message, e = .panic message) ∨ ∃ message, e = .invalidQuery message := by
  obtain ⟨hinv, -⟩ := hr.vectorInv n
  obtain ⟨hinv', hholds'⟩ := (hrun.reachable hr).vectorInv n
  obtain ⟨hcolumns, hcont⟩ := hrun.continues hr
  obtain ⟨h, hh, -⟩ := hinv.follows column hc
  obtain ⟨h', hh', hext⟩ := hcont column hc h hh
  have hc' : column ∈ (r'.store n).annColumns := hcolumns ▸ hc
  obtain ⟨h'', hh'', hf⟩ := hinv'.follows column hc'
  obtain rfl : h' = h'' := by rw [hh', Option.some_inj] at hh''; exact hh''
  exact ⟨h, h', hh, hh', hinv'.vectorInvariant hholds' hc' hh', hext,
    Hnsw.search_isOk g fun e he ↦ (hf.inv.entry_some e he).imp fun _ hn ↦ hn.1,
    fun pk before after e hfits he ↦
      Hnsw.onChange_error g hf.inv hfits he⟩

end TableStore

/-! ## Concrete runs -/

namespace RelRun

/-- A table of vectors. -/
def itemsSchema : TableSchema := .ofRelSchema
  { name := "items", columns := [("id", .int), ("v", .list)], primaryKey := "id",
    autoIncrementPk := false, indexedColumns := [] }

/-- Register the table and index its vectors. -/
def itemsTx : List DbOp :=
  [.createTable itemsSchema, .createVectorIndex "items" "v" { metric := .dot }]

/-- A row with a vector. -/
def item (components : List PropValue) : Properties := OrdMap.insert ∅ "v" (.list components)

/-- Insert a row with a vector. -/
def insertItem (id : Int64) (components : List PropValue) : DbOp :=
  .rows ⟨itemsSchema, true⟩ (.insertWithPkBulk [(.int id, item components)] .error)

theorem length_of_vectorOf_list {components : List PropValue} {v : List F32}
    (h : vectorOf (.list components) = some v) : v.length = components.length := by
  rw [vectorOf] at h
  induction components generalizing v with
  | nil =>
    obtain rfl : [] = v := by simpa using h
    rfl
  | cons c l ih =>
    rw [List.mapM_cons, Option.bind_eq_bind, Option.bind_eq_some_iff] at h
    obtain ⟨x, -, h⟩ := h
    rw [Option.bind_eq_bind, Option.bind_eq_some_iff] at h
    obtain ⟨w, hw, h⟩ := h
    obtain rfl : x :: w = v := by simpa using h
    rw [List.length_cons, List.length_cons, ih hw]

theorem gives_insertItem (id : Int64) {components : List PropValue}
    (h : components.length < 2 ^ 32) : (insertItem id components).Gives TableStore.FitsIndex := by
  refine ⟨by simp [TableSchema.Defaults, itemsSchema, TableSchema.ofRelSchema], fun e he ↦ ?_⟩
  obtain rfl := List.mem_singleton.mp he
  refine ⟨TableStore.fitsIndex_int id, fun c v hv ↦ ?_⟩
  have hmem := OrdMap.mem_entries.mpr hv
  obtain ⟨-, rfl⟩ : c = "v" ∧ v = .list components := by
    simpa [item, OrdMap.mem_entries_insert] using hmem
  refine ⟨fun w hw ↦ ?_, fun k hk ↦ by simp [sortableKey] at hk⟩
  rw [length_of_vectorOf_list (by simpa using hw)]
  exact h

theorem gives_itemsTx : ∀ op ∈ itemsTx, op.Gives TableStore.FitsIndex := by
  intro op hop
  simp only [itemsTx, List.mem_cons, List.not_mem_nil, or_false] at hop
  rcases hop with rfl | rfl
  · simp [DbOp.Gives, TableSchema.Defaults, itemsSchema, TableSchema.ofRelSchema]
  · trivial

/-- Two rows come and the first one goes. -/
private def itemsOps : List DbOp :=
  [insertItem 1 [.int 1, .int 2], insertItem 2 [.int 3, .int 4],
    .rows ⟨itemsSchema, true⟩ (.delete (.int 1))]

private theorem gives_itemsOps : ∀ op ∈ itemsOps, op.Gives TableStore.FitsIndex ∧
    checkIdentifier "table" op.table = .ok () ∧
      (op.table = "items" → ∃ ref rowOp, op = .rows ref rowOp) := by
  intro op hop
  simp only [itemsOps, List.mem_cons, List.not_mem_nil, or_false] at hop
  rcases hop with rfl | rfl | rfl
  · exact ⟨gives_insertItem 1 (by decide), by decide +kernel, fun _ ↦ ⟨_, _, rfl⟩⟩
  · exact ⟨gives_insertItem 2 (by decide), by decide +kernel, fun _ ↦ ⟨_, _, rfl⟩⟩
  · exact ⟨⟨by simp [TableSchema.Defaults, itemsSchema, TableSchema.ofRelSchema], trivial⟩,
      by decide +kernel, fun _ ↦ ⟨_, _, rfl⟩⟩

/-- The state the rows leave: one vector, under the second id. -/
private def itemsCheck (r : RelRun) : Bool :=
  ((r.store "items").ann "v").any fun h ↦
    decide (h.annMeta.nextId = 3) && decide (h.annMeta.count = 1)

theorem vector_index_invariant_items : ∃ (r r' : RelRun) (h h' : Hnsw),
    @Reachable Unicode.ascii ℕ _ Ann.flat (DbOp.Gives TableStore.FitsIndex) r ∧
      @RowRun Unicode.ascii ℕ _ Ann.flat (DbOp.Gives TableStore.FitsIndex) "items" r r' ∧
      (r.store "items").ann "v" = some h ∧ (r'.store "items").ann "v" = some h' ∧
      h'.annMeta.count = 1 ∧ (r'.store "items").VectorInvariant "v" h' ∧ h.Extends h' := by
  obtain ⟨r, hr, hp⟩ := @exists_reachable Unicode.ascii ℕ _ Ann.flat
    (DbOp.Gives TableStore.FitsIndex) [itemsTx]
    (fun r ↦ decide ((r.store "items").annColumns = ["v"]) &&
      (itemsOps.foldlM (@apply Unicode.ascii ℕ _ Ann.flat) r).toOption.any itemsCheck)
    (by
      intro ops hops op hop
      obtain rfl := List.mem_singleton.mp hops
      refine ⟨gives_itemsTx op hop, ?_⟩
      simp only [itemsTx, List.mem_cons, List.not_mem_nil, or_false] at hop
      rcases hop with rfl | rfl <;> decide +kernel) (by decide +kernel)
  rw [Bool.and_eq_true, decide_eq_true_eq] at hp
  obtain ⟨hcolumns, hrest⟩ := hp
  cases hfold : itemsOps.foldlM (@apply Unicode.ascii ℕ _ Ann.flat) r with
  | error e => simp [hfold, Except.toOption] at hrest
  | ok r' =>
    have hrun : @RowRun Unicode.ascii ℕ _ Ann.flat (DbOp.Gives TableStore.FitsIndex) "items" r r' :=
      @RowRun.commit Unicode.ascii ℕ _ Ann.flat _ _ r r r' itemsOps
        (@RowRun.refl Unicode.ascii ℕ _ Ann.flat _ _ r) gives_itemsOps hfold
    obtain ⟨h, h', hh, hh', hinv, hext, -, -⟩ := @TableStore.vector_index_invariant Unicode.ascii ℕ _
      Ann.flat r r' "items" "v" hr hrun (by rw [hcolumns]; simp)
    refine ⟨r, r', h, h', hr, hrun, hh, hh', ?_, hinv, hext⟩
    rw [hfold] at hrest
    simp only [Except.toOption, Option.any_some, itemsCheck, hh', Bool.and_eq_true,
      decide_eq_true_eq] at hrest
    exact hrest.2

private theorem add_freshIndex {v : List F32} (hv : v ≠ []) (pk : Bytes) :
    ∃ h, (TableStore.freshIndex "items" "v" { metric := .dot }).add Ann.flat pk v = .ok h ∧
      h.annMeta.dim = v.length % 2 ^ 32 ∧ ∃ n, h.node 1 = some n ∧ n.vector = v := by
  rw [Hnsw.add, if_neg hv]
  exact ⟨_, rfl, rfl, ⟨0, pk, v⟩, OrdMap.get?_insert_self .., rfl⟩

/-- The table after registration and the creation of the index. -/
private def itemsIndexed : TableStore :=
  { schema := some itemsSchema
    annColumns := ["v"]
    ann := Function.update (fun _ ↦ none) "v"
      (some (TableStore.freshIndex "items" "v" { metric := .dot })) }

private def itemsIndexedRun : RelRun where
  store := Function.update (Function.update RelStore.fresh "items" { schema := some itemsSchema })
    "items" itemsIndexed
  adopted := Function.update (Function.update (fun _ ↦ none) "items" (some {})) "items" (some {})

/-- The key of the row. -/
def itemKey : Bytes := Bytes.be 8 (flipSign 1).toNat

private theorem runTxs_items {components : List PropValue} {h : Hnsw}
    (hc : (TableStore.freshIndex "items" "v" { metric := .dot }).onChange Ann.flat itemKey none
      (some (.list components)) = .ok h) :
    ∃ r, @runTxs Unicode.ascii ℕ _ Ann.flat [itemsTx, [insertItem 1 components]] = .ok r ∧
      (r.store "items").ann "v" = some h := by
  have hsetup : itemsTx.foldlM (@apply Unicode.ascii ℕ _ Ann.flat) fresh =
      .ok itemsIndexedRun := rfl
  have hrun : @TableStore.applyOp Unicode.ascii ℕ _ Ann.flat (itemsIndexedRun.store "items")
      (insertItem 1 components) =
      ((((TableStore.freshIndex "items" "v" { metric := .dot }).onChange Ann.flat itemKey none
        (some (.list components)) >>= fun h ↦ pure { itemsIndexed with
          rows := OrdMap.insert ∅ itemKey (item components)
          ann := Function.update itemsIndexed.ann "v" (some h) }) >>= pure) >>=
        fun t ↦ t.ftsColumns.foldlM (@TableStore.ftsColumnChange Unicode.ascii itemKey none
          (some (item components))) t) >>= pure := rfl
  rw [hc] at hrun
  obtain ⟨r, hr, hstore⟩ := @exists_apply Unicode.ascii ℕ _ Ann.flat itemsIndexedRun
    (insertItem 1 components) _ hrun
  have hstore' : (r.store "items").ann = Function.update itemsIndexed.ann "v" (some h) := by
    rw [show (insertItem 1 components).table = "items" from rfl] at hstore
    rw [hstore]
  refine ⟨r, ?_, by rw [hstore', Function.update_self]⟩
  unfold runTxs
  rw [List.foldlM_cons, hsetup, Except.ok_bind, List.foldlM_cons, List.foldlM_cons, hr]
  rfl

theorem vectorOf_replicate (n : ℕ) :
    vectorOf (.list (List.replicate n (.int 0))) = some (List.replicate n (.ofInt 0)) := by
  rw [vectorOf]
  induction n with
  | zero => rfl
  | succ n ih =>
    rw [List.replicate_succ, List.mapM_cons, ih]
    rfl

/-- A vector of `2 ^ 32` or more components is stored under a smaller dimension. -/
private theorem replicate_not_invariant {n : ℕ} (hn : 2 ^ 32 ≤ n) : ∃ (r : RelRun) (h : Hnsw),
    @runTxs Unicode.ascii ℕ _ Ann.flat [itemsTx, [insertItem 1 (List.replicate n (.int 0))]] =
        .ok r ∧
      @Reachable Unicode.ascii ℕ _ Ann.flat (fun _ ↦ True) r ∧
      (r.store "items").ann "v" = some h ∧ ¬(r.store "items").VectorInvariant "v" h := by
  have hne : List.replicate n (IeeeFloat.ofInt 0 : F32) ≠ [] := by
    rw [ne_eq, List.replicate_eq_nil_iff]
    omega
  obtain ⟨h, hadd, hdim, x, hx, hvector⟩ := add_freshIndex hne itemKey
  have hchange : (TableStore.freshIndex "items" "v" { metric := .dot }).onChange Ann.flat itemKey
      none (some (.list (List.replicate n (.int 0)))) = .ok h := by
    rw [Hnsw.onChange]
    simp only [eqvOption, Bool.false_eq_true, if_false, Option.isSome_none, Option.bind_some,
      vectorOf_replicate]
    exact hadd
  obtain ⟨r, hr, hh⟩ := runTxs_items hchange
  refine ⟨r, h, hr, ?_, hh, fun hinv ↦ ?_⟩
  · refine @reachable_of_runTxs Unicode.ascii ℕ _ Ann.flat (fun _ ↦ True) _ r
      (fun ops hops op hop ↦ ⟨trivial, ?_⟩) hr
    have htable : op.table = "items" := by
      simp only [List.mem_cons, List.not_mem_nil, or_false] at hops
      rcases hops with rfl | rfl
      · simp only [itemsTx, List.mem_cons, List.not_mem_nil, or_false] at hop
        rcases hop with rfl | rfl <;> rfl
      · rw [List.mem_singleton.mp hop]
        rfl
    rw [htable]
    decide +kernel
  · have hlen := hinv.dim 1 x hx
    rw [hdim, hvector, List.length_replicate] at hlen
    have hlt : n % 2 ^ 32 < 2 ^ 32 := Nat.mod_lt _ (by norm_num)
    omega

/-- A vector of `2 ^ 32` components breaks the dimension. -/
theorem long_vector_not_invariant : ∃ (r : RelRun) (h : Hnsw),
    @runTxs Unicode.ascii ℕ _ Ann.flat
        [itemsTx, [insertItem 1 (List.replicate (2 ^ 32) (.int 0))]] = .ok r ∧
      @Reachable Unicode.ascii ℕ _ Ann.flat (fun _ ↦ True) r ∧
      (r.store "items").ann "v" = some h ∧ ¬(r.store "items").VectorInvariant "v" h :=
  replicate_not_invariant (le_refl _)

end RelRun
