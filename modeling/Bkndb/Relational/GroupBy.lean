import Bkndb.Relational.Aggregate

/-!
# What grouping returns

A grouped aggregation over a consistent table, in terms of the rows of the full scan that match: one
output row for each key these rows have, in ascending order of the keys, with every aggregate over
the rows of its key. None of this mentions the order in which the rows were met, and it leaves one
list of output rows only, so the access path does not matter.

## Main results

* `aggregateRows_spec`: what grouping a list of rows returns.
* `IsAggregation.unique`: there is one list that does, so `aggregateRows_perm`: rows in another
  order are grouped to the same list.
* `aggregate_correct`: the result of a grouped query, for every access path.

The columns to group by have sortable kinds. Floats are not among them, and lists and maps are not:
groups are found by the bytes of their keys and ordered by the values, and for these kinds the two
disagree.
-/

open PropValue

/-! ## The result -/

/-- The key of a group of the rows. There is one group, of the empty key, when there is nothing to
group by. -/
def IsGroup (schema : TableSchema) (groupBy : List String) (rows : List Row) (k : List PropValue) :
    Prop :=
  (groupBy = [] ∧ k = []) ∨ ∃ row ∈ rows, groupKey schema groupBy row = k

open Classical in
/-- The rows of a group. -/
noncomputable def groupRows (schema : TableSchema) (groupBy : List String) (rows : List Row)
    (k : List PropValue) : List Row :=
  rows.filter fun row ↦ groupKey schema groupBy row = k

/-- The sort keys of a group's key. -/
def sortKeys (k : List PropValue) : List Bytes := k.map fun v ↦ sortKey (some v)

/-- Some group has a sum that does not fit. -/
def SumOverflows (schema : TableSchema) (groupBy : List String) (aggs : List Agg)
    (rows : List Row) : Prop :=
  ∃ k, IsGroup schema groupBy rows k ∧
    ∃ agg ∈ aggs, agg.Overflows schema (groupRows schema groupBy rows k)

/-- One output row for each group, in ascending order of the keys, with the aggregates over the rows
of the group. -/
structure IsAggregation (schema : TableSchema) (groupBy : List String) (aggs : List Agg)
    (rows : List Row) (out : List AggregateRow) : Prop where
  groups : ∀ k, k ∈ out.map (·.group) ↔ IsGroup schema groupBy rows k
  ascending : out.Pairwise fun a b ↦ sortKeys a.group < sortKeys b.group
  values : ∀ r ∈ out, List.Forall₂
    (fun agg v ↦ agg.IsValue schema (groupRows schema groupBy rows r.group) v) aggs r.values

variable {schema : TableSchema} {groupBy : List String} {aggs : List Agg} {rows : List Row}

/-! ## Keys -/

/-- Every column to group by is a declared column of a sortable kind. -/
def SortableGroup (schema : TableSchema) (groupBy : List String) : Prop :=
  ∀ c ∈ groupBy, ∃ col, schema.column c = some col ∧ col.kind.isSortable = true

/-- The columns that an aggregation reads. -/
def readColumns (groupBy : List String) (aggs : List Agg) : List String :=
  groupBy ++ aggs.filterMap Agg.column

/-- A row with values of the declared kinds in the columns that are read, and of lengths that fit a
word where it is grouped. -/
structure Groupable (schema : TableSchema) (groupBy : List String) (aggs : List Agg) (row : Row) :
    Prop where
  typed : RowTyped schema (readColumns groupBy aggs) row
  fits : ∀ c ∈ groupBy, ∀ v, row.get schema c = some v → v.FitsWord

theorem column_subset_readColumns {agg : Agg} (h : agg ∈ aggs) :
    agg.column.toList ⊆ readColumns groupBy aggs := fun _ hc ↦
  List.mem_append_right _ (List.mem_filterMap.mpr ⟨agg, h, Option.mem_toList.mp hc⟩)

/-- A value that a group's key may have at a column. -/
def KeyValue (schema : TableSchema) (c : String) (v : PropValue) : Prop :=
  v.IsScalar ∧ ∃ col, schema.column c = some col ∧ col.kind.isSortable = true ∧
    OfKind col.kind (some v)

theorem isScalar_of_ofKind {kind : ColumnKind} (hs : kind.isSortable = true) {v : PropValue}
    (hv : OfKind kind (some v)) (hfits : v.FitsWord) : v.IsScalar := by
  refine ⟨hfits, ?_⟩
  cases v with
  | float x => simp [← hv (.float x) rfl, ColumnKind.of, ColumnKind.isSortable] at hs
  | list l => simp [← hv (.list l) rfl, ColumnKind.of, ColumnKind.isSortable] at hs
  | map m => simp [← hv (.map m) rfl, ColumnKind.of, ColumnKind.isSortable] at hs
  | _ => trivial

theorem Groupable.keyValue {row : Row} (h : Groupable schema groupBy aggs row)
    (hgroup : SortableGroup schema groupBy) {c : String} (hc : c ∈ groupBy) :
    KeyValue schema c ((resolve schema row c).getD .null) := by
  obtain ⟨col, hcol, hs⟩ := hgroup c hc
  have hget : resolve schema row c = row.get schema c := by
    rw [resolve, if_pos (by rw [hcol]; rfl)]
  have hof : OfKind col.kind (some ((resolve schema row c).getD .null)) := by
    rw [hget]
    cases hv : row.get schema c with
    | none =>
      intro v hv
      cases hv
    | some v =>
      have := h.typed c (List.mem_append_left _ hc) col hcol
      rwa [hv] at this
  refine ⟨isScalar_of_ofKind hs hof ?_, col, hcol, hs, hof⟩
  rw [hget]
  cases hv : row.get schema c with
  | none => trivial
  | some v => exact h.fits c hc v hv

theorem Groupable.forall₂ {row : Row} (h : Groupable schema groupBy aggs row)
    (hgroup : SortableGroup schema groupBy) :
    List.Forall₂ (KeyValue schema) groupBy (groupKey schema groupBy row) := by
  rw [groupKey, List.forall₂_map_right_iff, List.forall₂_same]
  exact fun c hc ↦ h.keyValue hgroup hc

theorem IsGroup.forall₂ {k : List PropValue} (hk : IsGroup schema groupBy rows k)
    (hgroup : SortableGroup schema groupBy) (hrows : ∀ row ∈ rows, Groupable schema groupBy aggs row) :
    List.Forall₂ (KeyValue schema) groupBy k := by
  rcases hk with ⟨rfl, rfl⟩ | ⟨row, hrow, rfl⟩
  · exact .nil
  · exact (hrows row hrow).forall₂ hgroup

theorem sortBytes_inj {v w : PropValue} (hkind : ColumnKind.of v = .of w)
    (hs : (ColumnKind.of v).isSortable = true) (h : sortBytes v = sortBytes w) : v = w := by
  cases v with
  | bool x =>
    cases w with
    | bool y => cases x <;> cases y <;> first | rfl | exact absurd h (by decide)
    | _ => simp [ColumnKind.of] at hkind
  | int x =>
    cases w with
    | int y => exact congrArg int (be_flipSign_injective h)
    | _ => simp [ColumnKind.of] at hkind
  | timestamp x =>
    cases w with
    | timestamp y => exact congrArg timestamp (be_flipSign_injective h)
    | _ => simp [ColumnKind.of] at hkind
  | str x =>
    cases w with
    | str y => exact congrArg str (String.utf8_injective h)
    | _ => simp [ColumnKind.of] at hkind
  | bytes x =>
    cases w with
    | bytes y => exact congrArg PropValue.bytes h
    | _ => simp [ColumnKind.of] at hkind
  | uuid x =>
    cases w with
    | uuid y => exact congrArg uuid (Vector.toList_inj.mp h)
    | _ => simp [ColumnKind.of] at hkind
  | null => simp [ColumnKind.of, ColumnKind.isSortable] at hs
  | float => simp [ColumnKind.of, ColumnKind.isSortable] at hs
  | list => simp [ColumnKind.of, ColumnKind.isSortable] at hs
  | map => simp [ColumnKind.of, ColumnKind.isSortable] at hs

theorem eq_null_of_nonNull {v : PropValue} (h : nonNull (some v) = none) : v = .null := by
  cases v <;> simp_all [nonNull, isNull]

theorem KeyValue.eq_of_sortKey {c : String} {v w : PropValue} (hv : KeyValue schema c v)
    (hw : KeyValue schema c w) (h : sortKey (some v) = sortKey (some w)) : v = w := by
  obtain ⟨-, col, hcol, hs, hofv⟩ := hv
  obtain ⟨-, col', hcol', -, hofw⟩ := hw
  obtain rfl := Option.some.inj (hcol.symm.trans hcol')
  rw [sortKey, sortKey] at h
  cases hnv : nonNull (some v) with
  | none =>
    cases hnw : nonNull (some w) with
    | none => rw [eq_null_of_nonNull hnv, eq_null_of_nonNull hnw]
    | some w' =>
      rw [hnv, hnw] at h
      cases h
  | some v' =>
    cases hnw : nonNull (some w) with
    | none =>
      rw [hnv, hnw] at h
      cases h
    | some w' =>
      rw [hnv, hnw] at h
      obtain ⟨hv', -⟩ := nonNull_eq_some.mp hnv
      obtain ⟨hw', -⟩ := nonNull_eq_some.mp hnw
      have hkv := hofv v' hnv
      have hkw := hofw w' hnw
      rw [Option.some.inj hv', Option.some.inj hw']
      exact sortBytes_inj (hkv.trans hkw.symm) (hkv ▸ hs) (List.cons.inj h).2

theorem eq_of_sortKeys {k l : List PropValue} (hk : List.Forall₂ (KeyValue schema) groupBy k)
    (hl : List.Forall₂ (KeyValue schema) groupBy l) (h : sortKeys k = sortKeys l) : k = l := by
  induction hk generalizing l with
  | nil => exact (List.forall₂_nil_left_iff.mp hl).symm
  | cons hv hk ih =>
    obtain ⟨w, l, hw, hl', rfl⟩ := List.forall₂_cons_left_iff.mp hl
    obtain ⟨hvw, hkl⟩ := List.cons.inj h
    rw [hv.eq_of_sortKey hw hvw, ih hl' hkl]

/-- **The comparison of keys is that of their sort keys.** -/
theorem keyCmp_isLE_iff {k l : List PropValue} (hk : List.Forall₂ (KeyValue schema) groupBy k)
    (hl : List.Forall₂ (KeyValue schema) groupBy l) :
    (keyCmp k l).isLE = true ↔ sortKeys k ≤ sortKeys l := by
  induction hk generalizing l with
  | nil =>
    obtain rfl := List.forall₂_nil_left_iff.mp hl
    exact iff_of_true rfl le_rfl
  | @cons c v groupBy k hv hk ih =>
    obtain ⟨w, l, hw, hl', rfl⟩ := List.forall₂_cons_left_iff.mp hl
    obtain ⟨-, col, hcol, hs, hofv⟩ := hv
    obtain ⟨-, col', hcol', -, hofw⟩ := hw
    obtain rfl := Option.some.inj (hcol.symm.trans hcol')
    have hcmp := totalCmp_eq_cmp_sortKey hs hofv hofw
    have hcons : sortKeys (v :: k) ≤ sortKeys (w :: l) ↔ sortKey (some v) < sortKey (some w) ∨
        (sortKey (some v) = sortKey (some w) ∧ sortKeys k ≤ sortKeys l) := by
      rw [← not_lt, ← not_lt, sortKeys, sortKeys, List.map_cons, List.map_cons,
        List.cons_lt_cons_iff, not_or, not_and, not_lt]
      constructor
      · rintro ⟨hle, hrest⟩
        rcases lt_or_eq_of_le hle with hlt | heq
        · exact .inl hlt
        · exact .inr ⟨heq, hrest heq.symm⟩
      · rintro (hlt | ⟨heq, hrest⟩)
        · exact ⟨hlt.le, fun heq ↦ absurd heq.symm (ne_of_lt hlt)⟩
        · exact ⟨heq.le, fun _ ↦ hrest⟩
    have hkey : keyCmp (v :: k) (w :: l) =
        (Bytes.cmp (sortKey (some v)) (sortKey (some w))).then (keyCmp k l) := by
      rw [keyCmp, List.zip_cons_cons, List.map_cons, List.find?_cons, hcmp]
      cases hc : Bytes.cmp (sortKey (some v)) (sortKey (some w)) <;> rfl
    rw [hkey, hcons, ← ih hl']
    rcases lt_trichotomy (sortKey (some v)) (sortKey (some w)) with hlt | heq | hgt
    · rw [Bytes.cmp_eq_lt.mpr hlt]
      exact iff_of_true rfl (.inl hlt)
    · rw [Bytes.cmp_eq_eq.mpr heq]
      simp [heq]
    · rw [Bytes.cmp_eq_gt.mpr hgt]
      exact iff_of_false (by simp) (by simp [not_lt.mpr hgt.le, (ne_of_lt hgt).symm])

/-! ## The groups

The groups are kept in a vector in the order they were met, with a map from the bytes of a key to
its place. The general facts about this are in the module on grouping. -/

/-- The groups before any row. -/
def startGroups (groupBy : List String) (aggs : List Agg) : RowGroups :=
  if groupBy = [] then ⟨[([], aggs.map Agg.Acc.new)], ∅⟩ else ⟨[], ∅⟩

/-- The groups of the rows, each with its rows added up. -/
structure HoldsGroups (schema : TableSchema) (groupBy : List String) (aggs : List Agg)
    (rows : List Row) (entries : List (List PropValue × List Agg.Acc)) : Prop where
  nodup : (entries.map Prod.fst).Nodup
  groups : ∀ k, k ∈ entries.map Prod.fst ↔ IsGroup schema groupBy rows k
  states : ∀ e ∈ entries, e.2 =
    (groupRows schema groupBy rows e.1).foldl (addRow schema aggs) (aggs.map Agg.Acc.new)

theorem holdsGroups_nil (schema : TableSchema) (aggs : List Agg) (rows : List Row) :
    HoldsGroups schema [] aggs rows
      (rows.foldl (groupStep schema [] aggs) (startGroups [] aggs)).entries := by
  have hfold : ∀ accs, (rows.foldl (groupStep schema [] aggs) ⟨[([], accs)], ∅⟩).entries =
      [([], rows.foldl (addRow schema aggs) accs)] := by
    induction rows with
    | nil => exact fun _ ↦ rfl
    | cons row rows ih => exact fun accs ↦ ih (addRow schema aggs accs row)
  rw [startGroups, if_pos rfl, hfold]
  refine ⟨List.nodup_singleton _, fun k ↦ ?_, fun e he ↦ ?_⟩
  · rw [List.map_singleton, List.mem_singleton]
    refine ⟨fun hk ↦ .inl ⟨rfl, hk⟩, ?_⟩
    rintro (⟨-, rfl⟩ | ⟨row, -, rfl⟩)
    · rfl
    · rfl
  · obtain rfl := List.mem_singleton.mp he
    rw [groupRows, List.filter_eq_self.mpr fun row _ ↦ by simp [groupKey]]

/-- **The groups are the keys of the rows.** -/
theorem holdsGroups_foldl (hgroup : SortableGroup schema groupBy)
    (hrows : ∀ row ∈ rows, Groupable schema groupBy aggs row) :
    HoldsGroups schema groupBy aggs rows
      (rows.foldl (groupStep schema groupBy aggs) (startGroups groupBy aggs)).entries := by
  by_cases hnil : groupBy = []
  · subst hnil
    exact holdsGroups_nil schema aggs rows
  -- the keys are told apart by their bytes
  have hinj : ∀ r ∈ rows, ∀ r' ∈ rows, serializeKey (groupKey schema groupBy r) =
      serializeKey (groupKey schema groupBy r') →
        groupKey schema groupBy r = groupKey schema groupBy r' := by
    intro r hr r' hr' heq
    have hscalar : ∀ r ∈ rows, ∀ v ∈ groupKey schema groupBy r, v.IsScalar := by
      intro r hr v hv
      obtain ⟨c, hc, rfl⟩ := List.mem_map.mp hv
      exact ((hrows r hr).keyValue hgroup hc).1
    exact serializeKey_inj (by simp [groupKey]) (hscalar r hr) (hscalar r' hr') heq
  have hstep : groupStep schema groupBy aggs = Grouping.step serializeKey (aggs.map Agg.Acc.new)
      (groupKey schema groupBy) (addRow schema aggs) := by
    funext groups row
    rw [groupStep, if_neg hnil]
  have hempty : Grouping.Grouped serializeKey (aggs.map Agg.Acc.new) (groupKey schema groupBy)
      (addRow schema aggs) [] ⟨[], ∅⟩ := Grouping.grouped_nil
  have hgrouped := hempty.foldl rows hinj
  rw [startGroups, if_neg hnil, hstep]
  rw [List.nil_append] at hgrouped
  refine ⟨hgrouped.nodup_keys, fun k ↦ ?_, fun e he ↦ ?_⟩
  · constructor
    · intro hk
      obtain ⟨e, he, rfl⟩ := List.mem_map.mp hk
      exact .inr (List.mem_map.mp (hgrouped.sound e he).1)
    · rintro (⟨h, -⟩ | ⟨row, hrow, rfl⟩)
      · exact absurd h hnil
      · exact hgrouped.complete row hrow
  · obtain ⟨hkey, hstate⟩ := hgrouped.sound e he
    obtain ⟨r, hr, hre⟩ := List.mem_map.mp hkey
    rw [hstate, Grouping.total, groupRows]
    congr 1
    refine List.filter_congr fun row hrow ↦ ?_
    rw [← hre, decide_eq_decide]
    exact ⟨hinj row hrow r hr, congrArg serializeKey⟩

theorem foldl_addRow (schema : TableSchema) (aggs : List Agg) (rows : List Row)
    (f : Agg → Agg.Acc) : rows.foldl (addRow schema aggs) (aggs.map f) =
      aggs.map fun agg ↦ rows.foldl (fun acc row ↦ acc.add agg schema row) (f agg) := by
  induction rows generalizing f with
  | nil => rfl
  | cons row rows ih =>
    have hadd : addRow schema aggs (aggs.map f) row =
        aggs.map fun agg ↦ (f agg).add agg schema row := by
      rw [addRow, List.zipWith_map_left, List.zipWith_self]
    rw [List.foldl_cons, hadd, ih]
    rfl

/-- The output row of a group: its aggregates, or an error when a sum does not fit. -/
theorem HoldsGroups.finishes {entries : List (List PropValue × List Agg.Acc)}
    (h : HoldsGroups schema groupBy aggs rows entries) (haggs : ∀ agg ∈ aggs, agg.IsExact schema)
    (hrows : ∀ row ∈ rows, Groupable schema groupBy aggs row) {e : List PropValue × List Agg.Acc}
    (he : e ∈ entries) :
    ((∃ agg ∈ aggs, agg.Overflows schema (groupRows schema groupBy rows e.1)) →
      finishGroup schema e = .error (Agg.Acc.sumOverflows schema.name)) ∧
    ((¬ ∃ agg ∈ aggs, agg.Overflows schema (groupRows schema groupBy rows e.1)) →
      ∃ r, finishGroup schema e = .ok r ∧ r.group = e.1 ∧ List.Forall₂
        (fun agg v ↦ agg.IsValue schema (groupRows schema groupBy rows e.1) v) aggs r.values) := by
  have htyped : ∀ agg ∈ aggs, ∀ row ∈ groupRows schema groupBy rows e.1,
      RowTyped schema agg.column.toList row :=
    fun agg hagg row hrow ↦ (hrows row (List.mem_of_mem_filter hrow)).typed.mono
      (column_subset_readColumns hagg)
  have hfinish := fun agg hagg ↦
    (Agg.Acc.holds_foldl (haggs agg hagg) (htyped agg hagg)).finish schema.name
  have hvalues : e.2.mapM (Agg.Acc.finish schema.name) = aggs.mapM fun agg ↦
      ((groupRows schema groupBy rows e.1).foldl (fun acc row ↦ acc.add agg schema row)
        (Agg.Acc.new agg)).finish schema.name := by
    rw [h.states e he, foldl_addRow, List.mapM_map]
    rfl
  obtain ⟨herror, hok⟩ := Except.mapM_cases (fun agg hagg ↦ (hfinish agg hagg).1)
    (fun agg hagg ↦ (hfinish agg hagg).2)
  rw [finishGroup, hvalues]
  refine ⟨fun hover ↦ ?_, fun hfits ↦ ?_⟩
  · rw [herror hover]
    rfl
  · obtain ⟨values, hvalues, hall⟩ := hok fun agg hagg hover ↦ hfits ⟨agg, hagg, hover⟩
    rw [hvalues]
    exact ⟨⟨e.1, values⟩, rfl, rfl, hall⟩

/-! ## The whole aggregation -/

theorem HoldsGroups.pairwise_mergeSort {entries : List (List PropValue × List Agg.Acc)}
    (h : HoldsGroups schema groupBy aggs rows entries) (hgroup : SortableGroup schema groupBy)
    (hrows : ∀ row ∈ rows, Groupable schema groupBy aggs row) :
    (entries.mergeSort fun a b ↦ (keyCmp a.1 b.1).isLE).Pairwise
      fun a b ↦ sortKeys a.1 < sortKeys b.1 := by
  have hkey : ∀ e ∈ entries, List.Forall₂ (KeyValue schema) groupBy e.1 := fun e he ↦
    ((h.groups e.1).mp (List.mem_map_of_mem he)).forall₂ hgroup hrows
  have heq : entries.mergeSort (fun a b ↦ (keyCmp a.1 b.1).isLE) =
      entries.mergeSort fun a b ↦ decide (sortKeys a.1 ≤ sortKeys b.1) := by
    have := List.map_mergeSort (f := id)
      (r := fun a b : List PropValue × List Agg.Acc ↦ (keyCmp a.1 b.1).isLE)
      (s := fun a b ↦ decide (sortKeys a.1 ≤ sortKeys b.1)) (l := entries) fun a ha b hb ↦ by
        rw [Bool.eq_iff_iff, decide_eq_true_iff]
        exact keyCmp_isLE_iff (hkey a ha) (hkey b hb)
    simpa using this
  have hle : (entries.mergeSort fun a b ↦ decide (sortKeys a.1 ≤ sortKeys b.1)).Pairwise
      fun a b ↦ sortKeys a.1 ≤ sortKeys b.1 := by
    refine (List.pairwise_mergeSort (fun a b c ↦ ?_) (fun a b ↦ ?_) entries).imp fun {a b} h ↦ ?_
    · simpa using le_trans
    · simpa using le_total (sortKeys a.1) (sortKeys b.1)
    · simpa using h
  have hne : (entries.mergeSort fun a b ↦ decide (sortKeys a.1 ≤ sortKeys b.1)).Pairwise
      fun a b ↦ a.1 ≠ b.1 :=
    List.pairwise_map.mp (((List.mergeSort_perm _ _).map Prod.fst).nodup_iff.mpr h.nodup)
  rw [heq]
  refine (hle.and hne).imp_of_mem fun {a b} ha hb hab ↦ lt_of_le_of_ne hab.1 fun hkeys ↦ hab.2 ?_
  exact eq_of_sortKeys (hkey a (List.mem_mergeSort.mp ha)) (hkey b (List.mem_mergeSort.mp hb)) hkeys

/-- **What grouping rows returns.** -/
theorem aggregateRows_spec (hgroup : SortableGroup schema groupBy)
    (haggs : ∀ agg ∈ aggs, agg.IsExact schema)
    (hrows : ∀ row ∈ rows, Groupable schema groupBy aggs row) :
    (SumOverflows schema groupBy aggs rows →
      aggregateRows schema groupBy aggs (rows.map .ok) =
        .error (Agg.Acc.sumOverflows schema.name)) ∧
    (¬ SumOverflows schema groupBy aggs rows →
      ∃ out, aggregateRows schema groupBy aggs (rows.map .ok) = .ok out ∧
        IsAggregation schema groupBy aggs rows out) := by
  have hfold : (rows.map Except.ok).foldlM
      (fun groups (row : Except BknError Row) ↦ groupStep schema groupBy aggs groups <$> row)
      (startGroups groupBy aggs) =
        .ok (rows.foldl (groupStep schema groupBy aggs) (startGroups groupBy aggs)) := by
    rw [List.foldlM_map]
    exact List.foldlM_pure
  have hholds := @holdsGroups_foldl schema groupBy aggs rows hgroup hrows
  have hrun : aggregateRows schema groupBy aggs (rows.map .ok) =
      ((rows.foldl (groupStep schema groupBy aggs) (startGroups groupBy aggs)).entries.mergeSort
        fun a b ↦ (keyCmp a.1 b.1).isLE).mapM (finishGroup schema) := by
    rw [aggregateRows]
    change ((rows.map Except.ok).foldlM _ (startGroups groupBy aggs)) >>= _ = _
    rw [hfold]
    rfl
  rw [hrun]
  generalize (rows.foldl (groupStep schema groupBy aggs) (startGroups groupBy aggs)).entries =
    entries at hholds
  have hsorted := hholds.pairwise_mergeSort hgroup hrows
  have hmem : ∀ e, e ∈ entries.mergeSort (fun a b ↦ (keyCmp a.1 b.1).isLE) ↔ e ∈ entries :=
    fun e ↦ List.mem_mergeSort
  generalize entries.mergeSort (fun a b ↦ (keyCmp a.1 b.1).isLE) = sorted at hsorted hmem
  obtain ⟨herror, hok⟩ := Except.mapM_cases (l := sorted)
    (fun e he ↦ (hholds.finishes haggs hrows ((hmem e).mp he)).1)
    (fun e he ↦ (hholds.finishes haggs hrows ((hmem e).mp he)).2)
  refine ⟨fun ⟨k, hk, hover⟩ ↦ ?_, fun hnone ↦ ?_⟩
  · obtain ⟨e, he, rfl⟩ := List.mem_map.mp ((hholds.groups k).mpr hk)
    exact herror ⟨e, (hmem e).mpr he, hover⟩
  · obtain ⟨out, hout, hall⟩ := hok fun e he hover ↦
      hnone ⟨e.1, (hholds.groups e.1).mp (List.mem_map_of_mem ((hmem e).mp he)), hover⟩
    refine ⟨out, hout, fun k ↦ ?_, ?_, fun r hr ↦ ?_⟩
    · rw [← hholds.groups]
      constructor
      · intro hk
        obtain ⟨r, hr, rfl⟩ := List.mem_map.mp hk
        obtain ⟨e, he, hre, -⟩ := hall.exists_left hr
        exact List.mem_map.mpr ⟨e, (hmem e).mp he, hre.symm⟩
      · intro hk
        obtain ⟨e, he, rfl⟩ := List.mem_map.mp hk
        obtain ⟨r, hr, hre, -⟩ := hall.exists_right ((hmem e).mpr he)
        exact List.mem_map.mpr ⟨r, hr, hre⟩
    · exact hall.pairwise_right hsorted fun a b r s hr hs hlt ↦ by rwa [hr.1, hs.1]
    · obtain ⟨e, -, hre, hvalues⟩ := hall.exists_left hr
      rwa [hre]

theorem groupRows_perm {rows' : List Row} (h : rows'.Perm rows) (k : List PropValue) :
    (groupRows schema groupBy rows' k).Perm (groupRows schema groupBy rows k) := h.filter _

theorem isGroup_perm {rows' : List Row} (h : rows'.Perm rows) {k : List PropValue} :
    IsGroup schema groupBy rows' k ↔ IsGroup schema groupBy rows k := by
  unfold IsGroup
  simp only [h.mem_iff]

theorem isExtremeValue_perm {r : Bytes → Bytes → Prop} {vs vs' : List PropValue} (h : vs'.Perm vs)
    {v : PropValue} : IsExtremeValue r vs' v ↔ IsExtremeValue r vs v := by
  unfold IsExtremeValue
  by_cases hnil : vs = []
  · subst hnil
    rw [List.perm_nil.mp h]
  · have hnil' : vs' ≠ [] := fun h' ↦ hnil (List.nil_perm.mp (h' ▸ h))
    rw [if_neg hnil, if_neg hnil', h.mem_iff]
    simp only [h.mem_iff]

namespace Agg

variable {agg : Agg} {rows' : List Row}

theorem isValue_perm (h : rows'.Perm rows) {v : PropValue} :
    agg.IsValue schema rows' v ↔ agg.IsValue schema rows v := by
  have hvalues : ∀ c, (columnValues schema c rows').Perm (columnValues schema c rows) :=
    fun c ↦ h.filterMap _
  cases agg with
  | count => rw [IsValue, IsValue, h.length_eq]
  | countColumn c => rw [IsValue, IsValue, (hvalues c).length_eq]
  | sum c =>
    have hsum : intSum (columnValues schema c rows') = intSum (columnValues schema c rows) :=
      ((hvalues c).map _).sum_eq
    have hnil : columnValues schema c rows' = [] ↔ columnValues schema c rows = [] := by
      rw [← List.length_eq_zero_iff, (hvalues c).length_eq, List.length_eq_zero_iff]
    simp only [IsValue, hsum, hnil]
  | min c => exact isExtremeValue_perm (hvalues c)
  | max c => exact isExtremeValue_perm (hvalues c)
  | avg c => rfl

theorem overflows_perm (h : rows'.Perm rows) :
    agg.Overflows schema rows' ↔ agg.Overflows schema rows := by
  cases agg with
  | sum c =>
    have hsum : intSum (columnValues schema c rows') = intSum (columnValues schema c rows) :=
      ((h.filterMap _).map _).sum_eq
    rw [Overflows, Overflows, hsum]
  | _ => rfl

theorem eq_of_isExtremeValue {r : Bytes → Bytes → Prop} [Std.Antisymm r] {c : String}
    {col : ColumnSchema} (hcol : schema.column c = some col) (hs : col.kind.isSortable = true)
    (hrows : ∀ row ∈ rows, RowTyped schema [c] row) {v w : PropValue}
    (hv : IsExtremeValue r (columnValues schema c rows) v)
    (hw : IsExtremeValue r (columnValues schema c rows) w) : v = w := by
  by_cases hnil : columnValues schema c rows = []
  · rw [IsExtremeValue, if_pos hnil] at hv hw
    rw [hv, hw]
  · obtain ⟨hv, hvall⟩ := (isExtremeValue_iff hnil).mp hv
    obtain ⟨hw, hwall⟩ := (isExtremeValue_iff hnil).mp hw
    have hkv := ofKind_of_mem_columnValues hcol hrows hv
    have hkw := ofKind_of_mem_columnValues hcol hrows hw
    exact sortBytes_inj (hkv.trans hkw.symm) (hkv ▸ hs)
      (Std.Antisymm.antisymm (r := r) _ _ (hvall w hw) (hwall v hv))

/-- **An aggregate has one value.** -/
theorem isValue_unique (hagg : agg.IsExact schema)
    (hrows : ∀ row ∈ rows, RowTyped schema agg.column.toList row)
    {v w : PropValue} (hv : agg.IsValue schema rows v) (hw : agg.IsValue schema rows w) :
    v = w := by
  cases agg with
  | count => exact hv.trans hw.symm
  | countColumn c => exact hv.trans hw.symm
  | sum c =>
    rw [IsValue] at hv hw
    split at hv
    case isTrue hnil =>
      rw [if_pos hnil] at hw
      exact hv.trans hw.symm
    case isFalse hnil =>
      rw [if_neg hnil] at hw
      obtain ⟨i, rfl, hi⟩ := hv
      obtain ⟨j, rfl, hj⟩ := hw
      rw [Int64.toInt.inj (hi.trans hj.symm)]
  | min c =>
    obtain ⟨col, hcol, hs⟩ := hagg
    exact eq_of_isExtremeValue hcol hs hrows hv hw
  | max c =>
    obtain ⟨col, hcol, hs⟩ := hagg
    exact eq_of_isExtremeValue hcol hs hrows hv hw
  | avg c => exact hv.elim

end Agg

/-- **One list of output rows is the aggregation.** -/
theorem IsAggregation.unique {rows' : List Row} {out out' : List AggregateRow}
    (hout : IsAggregation schema groupBy aggs rows out)
    (hout' : IsAggregation schema groupBy aggs rows' out') (hperm : rows'.Perm rows)
    (haggs : ∀ agg ∈ aggs, agg.IsExact schema)
    (hrows : ∀ row ∈ rows, RowTyped schema (readColumns groupBy aggs) row) : out = out' := by
  -- a group determines its row
  have hrow : ∀ a ∈ out, ∀ b ∈ out', a.group = b.group → a = b := by
    rintro ⟨k, values⟩ ha ⟨l, values'⟩ hb rfl
    have hvalues := (hout.values _ ha).eq_of_forall (hout'.values _ hb) fun agg hagg v w hv hw ↦
      Agg.isValue_unique (haggs agg hagg)
        (fun row hrow ↦ (hrows row (List.mem_of_mem_filter hrow)).mono
          (column_subset_readColumns hagg)) hv
        ((Agg.isValue_perm (groupRows_perm hperm k)).mp hw)
    exact congrArg (AggregateRow.mk k) hvalues
  have hmem : ∀ a, a ∈ out ↔ a ∈ out' := by
    intro a
    constructor
    · intro ha
      have hgroup := (hout.groups a.group).mp (List.mem_map_of_mem ha)
      obtain ⟨b, hb, hba⟩ := List.mem_map.mp
        ((hout'.groups a.group).mpr ((isGroup_perm hperm).mpr hgroup))
      rwa [hrow a ha b hb hba.symm]
    · intro ha
      have hgroup := (hout'.groups a.group).mp (List.mem_map_of_mem ha)
      obtain ⟨b, hb, hba⟩ := List.mem_map.mp
        ((hout.groups a.group).mpr ((isGroup_perm hperm).mp hgroup))
      rwa [← hrow b hb a ha hba]
  have hnodup : ∀ {out : List AggregateRow},
      out.Pairwise (fun a b ↦ sortKeys a.group < sortKeys b.group) → out.Nodup :=
    fun h ↦ h.imp fun hlt heq ↦ absurd (heq ▸ hlt) (lt_irrefl _)
  refine List.Perm.eq_of_pairwise (fun a b _ _ hab hba ↦ absurd hab (lt_asymm hba))
    hout.ascending hout'.ascending ?_
  rw [List.perm_ext_iff_of_nodup (hnodup hout.ascending) (hnodup hout'.ascending)]
  exact hmem

theorem sumOverflows_perm {rows' : List Row} (h : rows'.Perm rows) :
    SumOverflows schema groupBy aggs rows' ↔ SumOverflows schema groupBy aggs rows := by
  unfold SumOverflows
  refine exists_congr fun k ↦ and_congr (isGroup_perm h) (exists_congr fun agg ↦ ?_)
  rw [Agg.overflows_perm (groupRows_perm h k)]

/-- **The order of the rows does not matter.** -/
theorem aggregateRows_perm {rows' : List Row} (h : rows'.Perm rows)
    (hgroup : SortableGroup schema groupBy) (haggs : ∀ agg ∈ aggs, agg.IsExact schema)
    (hrows : ∀ row ∈ rows, Groupable schema groupBy aggs row) :
    aggregateRows schema groupBy aggs (rows'.map .ok) =
      aggregateRows schema groupBy aggs (rows.map .ok) := by
  have hrows' : ∀ row ∈ rows', Groupable schema groupBy aggs row :=
    fun row hrow ↦ hrows row (h.mem_iff.mp hrow)
  obtain ⟨herror, hok⟩ := aggregateRows_spec hgroup haggs hrows
  obtain ⟨herror', hok'⟩ := aggregateRows_spec hgroup haggs hrows'
  by_cases hover : SumOverflows schema groupBy aggs rows
  · rw [herror hover, herror' ((sumOverflows_perm h).mpr hover)]
  · obtain ⟨out, hout, hagg⟩ := hok hover
    obtain ⟨out', hout', hagg'⟩ := hok' ((sumOverflows_perm h).not.mpr hover)
    rw [hout, hout', hagg.unique hagg' h haggs fun row hrow ↦ (hrows row hrow).typed]

namespace TableStore

variable [Unicode] {t : TableStore}

theorem aggregateIn_eq {q : Query} (hq : q.checkColumns schema = .ok ())
    (hgroup : SortableGroup schema groupBy) (haggs : ∀ agg ∈ aggs, agg.IsExact schema)
    {rows : List (Except BknError Row)} (hrows : t.matchingRows schema q = .ok rows) :
    t.aggregateIn schema q groupBy aggs = aggregateRows schema groupBy aggs rows := by
  have hcolumns : q.checkColumnsAnd schema (aggs.filterMap Agg.column) = .ok () := by
    refine Query.checkColumnsAnd_eq_ok hq fun c hc ↦ ?_
    obtain ⟨agg, hagg, hcol⟩ := List.mem_filterMap.mp hc
    have hexact := haggs agg hagg
    cases agg with
    | count => cases hcol
    | countColumn d =>
      obtain rfl := Option.some.inj hcol
      obtain ⟨col, hcol⟩ := hexact
      rw [hcol]
      rfl
    | avg d => exact hexact.elim
    | sum d | min d | max d =>
      obtain rfl := Option.some.inj hcol
      obtain ⟨col, hcol, -⟩ := hexact
      rw [hcol]
      rfl
  have hunknown : groupBy.find? (fun g ↦ (rootColumn schema g).isNone) = none :=
    List.find?_eq_none.mpr fun c hc ↦ by
      obtain ⟨col, hcol, -⟩ := hgroup c hc
      simp [rootColumn, hcol]
  have hcheck : aggs.forM (Agg.check schema) = .ok () := by
    refine Except.forM_eq_ok.mpr fun agg hagg ↦ ?_
    have hexact := haggs agg hagg
    cases agg with
    | sum c =>
      obtain ⟨col, hcol, hkind⟩ := hexact
      exact Except.guardOr_eq_ok.mpr (.inl (by rw [hcol, Option.map_some, hkind]))
    | avg c => exact hexact.elim
    | _ => rfl
  rw [aggregateIn, hcolumns, Except.ok_bind, hunknown]
  change (aggs.forM (Agg.check schema) >>= _) = _
  rw [hcheck, Except.ok_bind, hrows, Except.ok_bind]

/-- **Grouped aggregation** over a table whose indexes are exact and that holds values of the columns'
kinds in the columns with an index and in those that are read: it fails iff the sum of some group does not fit
64 bits, it returns the aggregation of the matching rows of the scan otherwise, and the order in
which these rows are delivered does not matter. -/
theorem aggregate_correct (h : t.Indexed schema)
    (htyped : ∀ c ∈ readColumns groupBy aggs, t.TypedAt schema c) (q : Query)
    (hq : q.checkColumns schema = .ok ()) (hgroup : SortableGroup schema groupBy)
    (haggs : ∀ agg ∈ aggs, agg.IsExact schema)
    (hfits : ∀ row, t.HasRow schema row → ∀ c ∈ groupBy, ∀ v, row.get schema c = some v →
      v.FitsWord) :
    ∃ scan, t.scanAllIn schema = .ok scan ∧
      ((∃ e, t.aggregateIn schema q groupBy aggs = .error e) ↔
        SumOverflows schema groupBy aggs (scan.filter (q.matchesRow schema))) ∧
      (∀ out, t.aggregateIn schema q groupBy aggs = .ok out →
        IsAggregation schema groupBy aggs (scan.filter (q.matchesRow schema)) out) ∧
      ∀ rows : List Row, rows.Perm (scan.filter (q.matchesRow schema)) →
        aggregateRows schema groupBy aggs (rows.map .ok) =
          t.aggregateIn schema q groupBy aggs := by
  obtain ⟨scan, hscan, hrange⟩ := scanAllIn_spec h.rowsKeyed h.pkDeclared
  obtain ⟨access, hplan⟩ := plan_isOk h q.filters
  obtain ⟨rows, hrows, hcov⟩ := candidates_covers h hplan
  have hperm := hcov.perm_filter hrange
  have hmatch := matchingRows_eq hplan hrows
  have hgroupable : ∀ row ∈ scan.filter (q.matchesRow schema),
      Groupable schema groupBy aggs row := by
    intro row hrow
    have hhas := (hrange.mem_unbounded row).mp (List.mem_of_mem_filter hrow)
    exact ⟨rowTyped_of_typedAt htyped hhas, hfits row hhas⟩
  have hrun : t.aggregateIn schema q groupBy aggs =
      aggregateRows schema groupBy aggs ((scan.filter (q.matchesRow schema)).map .ok) := by
    rw [aggregateIn_eq hq hgroup haggs hmatch]
    exact aggregateRows_perm hperm hgroup haggs hgroupable
  obtain ⟨herror, hok⟩ := aggregateRows_spec hgroup haggs hgroupable
  refine ⟨scan, hscan, ⟨?_, fun hover ↦ ⟨_, hrun.trans (herror hover)⟩⟩, fun out hout ↦ ?_,
    fun rows' hrows' ↦ ?_⟩
  · rintro ⟨e, he⟩
    by_contra hover
    obtain ⟨out, hout, -⟩ := hok hover
    rw [hrun, hout] at he
    cases he
  · by_cases hover : SumOverflows schema groupBy aggs (scan.filter (q.matchesRow schema))
    · rw [hrun, herror hover] at hout
      cases hout
    · obtain ⟨out', hout', hagg⟩ := hok hover
      rw [hrun, hout', Except.ok.injEq] at hout
      exact hout ▸ hagg
  · rw [hrun]
    exact aggregateRows_perm hrows' hgroup haggs hgroupable

end TableStore

namespace TableStore

/-- Points of one coordinate counted and added up. -/
theorem aggregate_correct_points : ∃ (t : TableStore) (scan : List Row), t.rows.size = 1 ∧
    t.scanAllIn (pointsSchema ["x"]) = .ok scan ∧
    ((∃ e, @aggregateIn Unicode.ascii t (pointsSchema ["x"]) {} ["x"] [.count, .sum "x"] =
        .error e) ↔
      SumOverflows (pointsSchema ["x"]) ["x"] [.count, .sum "x"]
        (scan.filter (@Query.matchesRow Unicode.ascii {} (pointsSchema ["x"])))) := by
  obtain ⟨t, hsize, hcons⟩ := exists_points
  have hint : ∃ col, (pointsSchema ["x"]).column "x" = some col ∧ col.kind = .int := ⟨_, rfl, rfl⟩
  obtain ⟨scan, hscan, herror, -⟩ := @aggregate_correct _ ["x"] [.count, .sum "x"] Unicode.ascii t
    hcons.indexed (fun c _ ↦ hcons.rowsTyped.typedAt c) {} rfl (by simpa [SortableGroup] using ⟨_, hint.choose_spec.1, by
      rw [hint.choose_spec.2]; rfl⟩) (by simpa [Agg.IsExact] using hint) (by
      intro row hrow c hc v hv
      obtain ⟨col, hcol, hkind⟩ := hint
      obtain rfl := List.mem_singleton.mp hc
      have := hcons.rowsTyped row hrow _ _ _ hcol hv
      rw [hkind] at this
      cases v <;> simp_all [FitsWord, isNull, ColumnKind.of])
  exact ⟨t, scan, hsize, hscan, herror⟩

/-- Point 1 with the number 5 for a name: counting the rows with names from "a" on fails, and no sum
is asked for. -/
theorem not_aggregate_correct_adopted : ∃ (t₀ t : TableStore) (scan : List Row),
    @StaticRun Unicode.ascii ℕ _ Ann.flat pointsStatic t₀ ∧
    (∃ created, t₀.createTableIn (namedSchema ["x"]) = .ok (created, t)) ∧
    t.IndexesExact (namedSchema ["x"]) ∧ namesQuery.checkColumns (namedSchema ["x"]) = .ok () ∧
    t.scanAllIn (namedSchema ["x"]) = .ok scan ∧
    ¬((∃ e, @aggregateIn Unicode.ascii t (namedSchema ["x"]) namesQuery [] [.count] = .error e) ↔
      SumOverflows (namedSchema ["x"]) [] [.count]
        (scan.filter (@Query.matchesRow Unicode.ascii namesQuery (namedSchema ["x"])))) := by
  obtain ⟨t₀, t, hrun, hcreate, hexact, hcheck⟩ := @exists_adopted (namedSchema ["x"])
    pointsStatic RelRun.point (fun t ↦ (@aggregateIn Unicode.ascii t (namedSchema ["x"]) namesQuery
      [] [.count]).toOption.isNone) rfl (by decide +kernel)
  obtain ⟨scan, hscan, -⟩ := scanAllIn_spec hexact.rowsKeyed hexact.pkDeclared
  refine ⟨t₀, t, scan, hrun, hcreate, hexact, rfl, hscan, fun hiff ↦ ?_⟩
  cases haggregate : @aggregateIn Unicode.ascii t (namedSchema ["x"]) namesQuery [] [.count] with
  | ok out =>
    rw [haggregate] at hcheck
    cases hcheck
  | error e =>
    obtain ⟨k, -, agg, hagg, hover⟩ := hiff.mp ⟨e, haggregate⟩
    obtain rfl := List.mem_singleton.mp hagg
    exact hover

end TableStore
