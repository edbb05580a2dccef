import Bkndb.Basic.Grouping
import Bkndb.Basic.Int64
import Bkndb.Core.Serialize
import Bkndb.Relational.Select

/-!
# Grouped aggregation

Aggregates over the rows a query matches, in groups of equal keys (`relational/expr.rs` and
`aggregate_in` of `relational/query/exec.rs`). The state of an aggregate is updated row by row; what
it holds after any rows is told by their non-null values alone (`Agg.Acc.Holds`).

An integer sum is kept in 128 bits, which no number of rows overflows, and has to fit 64 bits at the
end only.

## Values and states

What an aggregate is to answer is defined from the rows (`Agg.IsValue`), and what the state of the
source holds after some rows is a property of it (`Agg.Acc.Holds`), kept by each row. Both speak of
the non-null values of a column only.

Floating-point sums and averages are left out of `IsExact`: they depend on the order in which the
rows come.
-/

open PropValue

/-- An aggregate function over the matched rows. -/
inductive Agg where
  /-- Number of rows. -/
  | count
  /-- Number of rows where the column is non-null. -/
  | countColumn (c : String)
  /-- Sum of a numeric column; null without non-null values. -/
  | sum (c : String)
  | min (c : String)
  | max (c : String)
  /-- Average of a numeric column as a float; null without non-null values. -/
  | avg (c : String)

namespace Agg

/-- The column an aggregate is over. -/
def column : Agg → Option String
  | count => none
  | countColumn c | sum c | min c | max c | avg c => some c

/-- `{:?}` of the kind of a column that may not exist. -/
def debugKind : Option ColumnKind → String
  | none => "None"
  | some kind => s!"Some({kind.debug})"

/-- Sums and averages need a numeric column. -/
def check (schema : TableSchema) : Agg → Except BknError Unit
  | sum c | avg c =>
    let kind := (schema.column c).map (·.kind)
    .guardOr (kind = some .int ∨ kind = some .float)
      (.schemaMismatch schema.name s!"SUM/AVG need a numeric column, '{c}' is {debugKind kind}")
  | _ => .ok ()

end Agg

/-- The state of one aggregate in one group. -/
inductive Agg.Acc where
  | count (n : ℕ)
  | sum (ints : ℤ) (floats : F64) (anyFloat seen : Bool)
  | min (cur : Option PropValue)
  | max (cur : Option PropValue)
  | avg (total : F64) (n : ℕ)

namespace Agg.Acc

/-- The state before any row. -/
def new : Agg → Acc
  | .count | .countColumn _ => .count 0
  | .sum _ => .sum 0 F64.zero false false
  | .min _ => .min none
  | .max _ => .max none
  | .avg _ => .avg F64.zero 0

/-- How a value has to compare with the best so far to take its place. -/
def want : Agg → Ordering
  | .min _ => .lt
  | _ => .gt

/-- The better of a value and the best so far, which is kept on a tie. -/
def better (agg : Agg) (v cur : Option PropValue) : Option PropValue :=
  match v with
  | some v => if cur.all fun c ↦ totalCmp (some v) (some c) == want agg then some v else cur
  | none => cur

/-- One more row. -/
def add (agg : Agg) (schema : TableSchema) (row : Row) (acc : Acc) : Acc :=
  let v := nonNull (agg.column.bind (row.get schema))
  match acc with
  | .count n => if agg.column.isNone || v.isSome then .count (n + 1) else .count n
  | .sum ints floats anyFloat seen =>
    match v with
    | some (.int i) => .sum (ints + i.toInt) floats anyFloat true
    | some (.float f) => .sum ints (floats.add f) true true
    | _ => .sum ints floats anyFloat seen
  | .min cur => .min (better agg v cur)
  | .max cur => .max (better agg v cur)
  | .avg total n =>
    match v with
    | some (.int i) => .avg (total.add (F64.ofInt64 i)) (n + 1)
    | some (.float f) => .avg (total.add f) (n + 1)
    | _ => .avg total n

/-- The error of a sum that does not fit. -/
def sumOverflows (table : String) : BknError :=
  .constraintViolation table ("SUM overflows a 64-bit integer" : String)

/-- The aggregate's value. -/
def finish (table : String) : Acc → Except BknError PropValue
  | .count n => .ok (.int (.ofNat n))
  | .sum _ _ _ false => .ok .null
  | .sum ints floats true _ => .ok (.float ((IeeeFloat.ofInt ints).add floats))
  | .sum ints _ _ _ => .int <$> .ofOption (sumOverflows table) (Int64.tryFrom ints)
  | .min v | .max v => .ok (v.getD .null)
  | .avg _ 0 => .ok .null
  | .avg total n => .ok (.float (total.div (IeeeFloat.ofInt n)))

end Agg.Acc

/-- One output row: the group's key values and one value for each aggregate. -/
structure AggregateRow where
  group : List PropValue
  values : List PropValue

/-- The first name that is not a column, also among further names used. -/
def Query.unknownColumnAnd (q : Query) (schema : TableSchema) (extra : List String) :
    Option String :=
  let paths := Expr.columnsAll q.filters ++ q.order.map Prod.fst
  (paths.find? fun p ↦ (rootColumn schema p).isNone).or
    ((q.columns.getD [] ++ extra).find? fun n ↦ (schema.column n).isNone)

/-- Every name used must be a column, also the further ones. -/
def Query.checkColumnsAnd (q : Query) (schema : TableSchema) (extra : List String) :
    Except BknError Unit :=
  match q.unknownColumnAnd schema extra with
  | some name => .error (.schemaMismatch schema.name s!"unknown column '{name}'")
  | none => .ok ()

/-- The key of a row's group; what is missing counts as null. -/
def groupKey (schema : TableSchema) (groupBy : List String) (row : Row) : List PropValue :=
  groupBy.map fun c ↦ (resolve schema row c).getD .null

/-- Every aggregate of a group takes a row. -/
def addRow (schema : TableSchema) (aggs : List Agg) (accs : List Agg.Acc) (row : Row) : List Agg.Acc :=
  List.zipWith (fun acc agg ↦ acc.add agg schema row) accs aggs

/-- The groups while rows are added. -/
abbrev RowGroups := Grouping.Groups (List PropValue) Bytes (List Agg.Acc)

/-- One row joins its group, the only one when there is nothing to group by. -/
def groupStep (schema : TableSchema) (groupBy : List String) (aggs : List Agg) (groups : RowGroups)
    (row : Row) : RowGroups :=
  if groupBy = [] then groups.update 0 (addRow schema aggs · row)
  else Grouping.step serializeKey (aggs.map Agg.Acc.new) (groupKey schema groupBy) (addRow schema aggs)
    groups row

/-- The order of the output. -/
def keyCmp (a b : List PropValue) : Ordering :=
  (((a.zip b).map fun e ↦ totalCmp (some e.1) (some e.2)).find? (· ≠ .eq)).getD .eq

/-- The output row of a group. -/
def finishGroup (schema : TableSchema) (e : List PropValue × List Agg.Acc) :
    Except BknError AggregateRow := do
  let values ← e.2.mapM (Agg.Acc.finish schema.name)
  return ⟨e.1, values⟩

/-- Group the rows of an access path and finish the groups in key order. -/
def aggregateRows (schema : TableSchema) (groupBy : List String) (aggs : List Agg)
    (rows : List (Except BknError Row)) : Except BknError (List AggregateRow) := do
  let groups : RowGroups :=
    if groupBy = [] then ⟨[([], aggs.map Agg.Acc.new)], ∅⟩ else ⟨[], ∅⟩
  let groups ← rows.foldlM (fun groups row ↦ groupStep schema groupBy aggs groups <$> row) groups
  (groups.entries.mergeSort fun a b ↦ (keyCmp a.1 b.1).isLE).mapM (finishGroup schema)

/-- Grouped aggregation over the rows matching the query's filters. -/
def TableStore.aggregateIn [Unicode] (t : TableStore) (schema : TableSchema) (q : Query)
    (groupBy : List String) (aggs : List Agg) : Except BknError (List AggregateRow) := do
  q.checkColumnsAnd schema (aggs.filterMap Agg.column)
  match groupBy.find? fun g ↦ (rootColumn schema g).isNone with
  | some unknown =>
    throw (.schemaMismatch schema.name s!"unknown column '{unknown}'")
  | none => pure ()
  aggs.forM (Agg.check schema)
  let rows ← t.matchingRows schema q
  aggregateRows schema groupBy aggs rows

theorem Query.checkColumnsAnd_eq_ok {q : Query} {schema : TableSchema} {extra : List String}
    (hq : q.checkColumns schema = .ok ()) (hextra : ∀ c ∈ extra, (schema.column c).isSome = true) :
    q.checkColumnsAnd schema extra = .ok () := by
  have hnone : q.unknownColumn schema = none := by
    rw [checkColumns] at hq
    split at hq
    · cases hq
    · assumption
  obtain ⟨hpaths, hnames⟩ := Option.or_eq_none_iff.mp hnone
  have hextra' : extra.find? (fun n ↦ (schema.column n).isNone) = none :=
    List.find?_eq_none.mpr fun c hc ↦ by simp [Option.isSome_iff_ne_none.mp (hextra c hc)]
  have hand : q.unknownColumnAnd schema extra = none := by
    refine Option.or_eq_none_iff.mpr ⟨hpaths, ?_⟩
    rw [List.find?_append, Option.or_eq_none_iff]
    exact ⟨hnames, hextra'⟩
  rw [checkColumnsAnd, hand]

/-! ## What an aggregate is

These definitions mention neither states nor the order of the rows. A minimum is a value of the
column that is no greater than any other; there may be several rows with it. -/

/-- The non-null values of a column. -/
def columnValues (schema : TableSchema) (c : String) (rows : List Row) : List PropValue :=
  rows.filterMap fun row ↦ nonNull (row.get schema c)

/-- The integer a value is. -/
def intOf : PropValue → ℤ
  | .int i => i.toInt
  | _ => 0

/-- The exact sum of integer values. -/
def intSum (vs : List PropValue) : ℤ := (vs.map intOf).sum

/-- Null without values, otherwise a value that stands in the relation to all of them, in the natural
order of their kind. -/
def IsExtremeValue (r : Bytes → Bytes → Prop) (vs : List PropValue) (v : PropValue) : Prop :=
  if vs = [] then v = .null else v ∈ vs ∧ ∀ w ∈ vs, r (sortBytes v) (sortBytes w)

namespace Agg

/-- The aggregates that are exact: counts, sums of integers, and extremes of the sortable kinds. -/
def IsExact (schema : TableSchema) : Agg → Prop
  | count => True
  | countColumn c => ∃ col, schema.column c = some col
  | sum c => ∃ col, schema.column c = some col ∧ col.kind = .int
  | min c | max c => ∃ col, schema.column c = some col ∧ col.kind.isSortable = true
  | avg _ => False

/-- An exact aggregate's value over the rows of a group. -/
def IsValue (schema : TableSchema) (rows : List Row) : Agg → PropValue → Prop
  | count, v => v = .int (.ofNat rows.length)
  | countColumn c, v => v = .int (.ofNat (columnValues schema c rows).length)
  | sum c, v =>
    if columnValues schema c rows = [] then v = .null
    else ∃ i : Int64, v = .int i ∧ i.toInt = intSum (columnValues schema c rows)
  | min c, v => IsExtremeValue (· ≤ ·) (columnValues schema c rows) v
  | max c, v => IsExtremeValue (· ≥ ·) (columnValues schema c rows) v
  | avg _, _ => False

/-- A sum that no 64-bit integer is. -/
def Overflows (schema : TableSchema) (rows : List Row) : Agg → Prop
  | sum c => ¬ Int64.Fits (intSum (columnValues schema c rows))
  | _ => False

end Agg

/-! ## What the state holds -/

/-- The row holds, in each of the columns, nothing or a value of its kind. -/
def RowTyped (schema : TableSchema) (columns : List String) (row : Row) : Prop :=
  ∀ c ∈ columns, ∀ col, schema.column c = some col → OfKind col.kind (row.get schema c)

theorem RowTyped.mono {schema : TableSchema} {columns columns' : List String} {row : Row}
    (h : RowTyped schema columns row) (hsub : columns' ⊆ columns) : RowTyped schema columns' row :=
  fun c hc ↦ h c (hsub hc)

theorem TableStore.rowTyped_of_typedAt {t : TableStore} {schema : TableSchema}
    {columns : List String} (h : ∀ c ∈ columns, t.TypedAt schema c) {row : Row}
    (hrow : t.HasRow schema row) : RowTyped schema columns row := by
  intro c hc col hcol
  have hkind := (h c hc).ofKind hrow hcol
  rwa [resolve, if_pos (by rw [hcol]; rfl)] at hkind

/-- The state of an exact aggregate after the rows. -/
def Agg.Acc.Holds (schema : TableSchema) (rows : List Row) : Agg → Agg.Acc → Prop
  | .count, acc => acc = .count rows.length
  | .countColumn c, acc => acc = .count (columnValues schema c rows).length
  | .sum c, acc => acc = .sum (intSum (columnValues schema c rows)) F64.zero false
      !(columnValues schema c rows).isEmpty
  | .min c, acc => ∃ cur, acc = .min cur ∧ (cur = none ↔ columnValues schema c rows = []) ∧
      IsExtremeValue (· ≤ ·) (columnValues schema c rows) (cur.getD .null)
  | .max c, acc => ∃ cur, acc = .max cur ∧ (cur = none ↔ columnValues schema c rows = []) ∧
      IsExtremeValue (· ≥ ·) (columnValues schema c rows) (cur.getD .null)
  | .avg _, _ => False

theorem columnValues_concat (schema : TableSchema) (c : String) (rows : List Row) (row : Row) :
    columnValues schema c (rows ++ [row]) =
      columnValues schema c rows ++ (nonNull (row.get schema c)).toList := by
  rw [columnValues, List.filterMap_append, columnValues]
  cases h : nonNull (row.get schema c) <;> simp [h]

theorem mem_columnValues {schema : TableSchema} {c : String} {rows : List Row} {v : PropValue} :
    v ∈ columnValues schema c rows ↔ ∃ row ∈ rows, nonNull (row.get schema c) = some v :=
  List.mem_filterMap

theorem ofKind_of_mem_columnValues {schema : TableSchema} {c : String} {col : ColumnSchema}
    (hcol : schema.column c = some col) {rows : List Row}
    (hrows : ∀ row ∈ rows, RowTyped schema [c] row)
    {v : PropValue} (hv : v ∈ columnValues schema c rows) : ColumnKind.of v = col.kind := by
  obtain ⟨row, hrow, hv⟩ := mem_columnValues.mp hv
  exact hrows row hrow c List.mem_cons_self col hcol v hv

theorem isExtremeValue_iff {r : Bytes → Bytes → Prop} {vs : List PropValue} (h : vs ≠ [])
    {v : PropValue} : IsExtremeValue r vs v ↔ v ∈ vs ∧ ∀ w ∈ vs, r (sortBytes v) (sortBytes w) := by
  rw [IsExtremeValue, if_neg h]

theorem IsExtremeValue.concat {r : Bytes → Bytes → Prop} [Std.Total r] [IsTrans Bytes r] (agg : Agg)
    {vs : List PropValue} {v : PropValue} {cur : Option PropValue}
    (h : IsExtremeValue r vs (cur.getD .null)) (hcur : cur = none ↔ vs = [])
    (hcmp : ∀ c ∈ vs, totalCmp (some v) (some c) = Agg.Acc.want agg ↔
      ¬ r (sortBytes c) (sortBytes v)) :
    ∃ w, Agg.Acc.better agg (some v) cur = some w ∧ IsExtremeValue r (vs ++ [v]) w := by
  have hrefl : r (sortBytes v) (sortBytes v) := (Std.Total.total (r := r) _ _).elim id id
  have hne : vs ++ [v] ≠ [] := by simp
  rw [Agg.Acc.better]
  cases cur with
  | none =>
    obtain rfl := hcur.mp rfl
    exact ⟨v, rfl, (isExtremeValue_iff hne).mpr ⟨by simp, by simpa using hrefl⟩⟩
  | some c =>
    obtain ⟨hc, hall⟩ := (isExtremeValue_iff (hcur.not.mp (by simp))).mp h
    rw [Option.getD_some] at hc hall
    rw [Option.all_some]
    by_cases hbest : r (sortBytes c) (sortBytes v)
    · have hkeep : (totalCmp (some v) (some c) == Agg.Acc.want agg) = false := by
        rw [beq_eq_false_iff_ne]
        exact fun heq ↦ (hcmp c hc).mp heq hbest
      rw [hkeep]
      refine ⟨c, rfl, (isExtremeValue_iff hne).mpr ⟨List.mem_append_left _ hc, fun w hw ↦ ?_⟩⟩
      rcases List.mem_append.mp hw with hw | hw
      · exact hall w hw
      · rwa [List.mem_singleton.mp hw]
    · have hless : r (sortBytes v) (sortBytes c) :=
        (Std.Total.total (r := r) _ _).resolve_right hbest
      rw [(hcmp c hc).mpr hbest, beq_self_eq_true, if_pos rfl]
      refine ⟨v, rfl, (isExtremeValue_iff hne).mpr
        ⟨List.mem_append_right _ (List.mem_singleton_self v), fun w hw ↦ ?_⟩⟩
      rcases List.mem_append.mp hw with hw | hw
      · exact Trans.trans hless (hall w hw)
      · rwa [List.mem_singleton.mp hw]

namespace Agg.Acc

variable {schema : TableSchema} {rows : List Row} {agg : Agg} {acc : Acc}

theorem holds_new (hagg : agg.IsExact schema) : Holds schema [] agg (new agg) := by
  cases agg with
  | count => rfl
  | countColumn c => rfl
  | sum c => rfl
  | min c => exact ⟨none, rfl, by simp [columnValues], rfl⟩
  | max c => exact ⟨none, rfl, by simp [columnValues], rfl⟩
  | avg c => exact hagg

theorem Holds.add (h : Holds schema rows agg acc) (hagg : agg.IsExact schema)
    (hrows : ∀ row ∈ rows, RowTyped schema agg.column.toList row) {row : Row}
    (hrow : RowTyped schema agg.column.toList row) :
    Holds schema (rows ++ [row]) agg (acc.add agg schema row) := by
  cases agg with
  | count =>
    subst h
    simp [Acc.add, Holds, Agg.column]
  | countColumn c =>
    subst h
    rw [Holds, columnValues_concat]
    cases hv : nonNull (row.get schema c) <;> simp [Acc.add, Agg.column, hv]
  | sum c =>
    obtain ⟨col, hcol, hkind⟩ := hagg
    subst h
    rw [Holds, columnValues_concat]
    cases hv : nonNull (row.get schema c) with
    | none => simp [Acc.add, Agg.column, hv]
    | some v =>
      have hof := hrow c List.mem_cons_self col hcol v hv
      rw [hkind] at hof
      cases v with
      | int i => simp [Acc.add, Agg.column, hv, intSum, intOf]
      | _ => simp [ColumnKind.of] at hof
  | min c =>
    obtain ⟨col, hcol, hs⟩ := hagg
    obtain ⟨cur, rfl, hcur, hbest⟩ := h
    rw [Holds, columnValues_concat]
    cases hv : nonNull (row.get schema c) with
    | none => exact ⟨cur, by simp [Acc.add, Agg.column, hv, better], by simpa using hcur,
        by simpa using hbest⟩
    | some v =>
      have hof := hrow c List.mem_cons_self col hcol v hv
      obtain ⟨w, hw, hnew⟩ := @IsExtremeValue.concat _ _ _ (.min c) _ v _ hbest hcur fun d hd ↦ by
        change _ = Ordering.lt ↔ _
        rw [totalCmp_of_sortable (hof.trans (ofKind_of_mem_columnValues hcol hrows hd).symm)
          (hof ▸ hs), Bytes.cmp_eq_lt, not_le]
      exact ⟨some w, by simp [Acc.add, Agg.column, hv, hw], by simp, hnew⟩
  | max c =>
    obtain ⟨col, hcol, hs⟩ := hagg
    obtain ⟨cur, rfl, hcur, hbest⟩ := h
    rw [Holds, columnValues_concat]
    cases hv : nonNull (row.get schema c) with
    | none => exact ⟨cur, by simp [Acc.add, Agg.column, hv, better], by simpa using hcur,
        by simpa using hbest⟩
    | some v =>
      have hof := hrow c List.mem_cons_self col hcol v hv
      obtain ⟨w, hw, hnew⟩ := @IsExtremeValue.concat _ _ _ (.max c) _ v _ hbest hcur fun d hd ↦ by
        change _ = Ordering.gt ↔ _
        rw [totalCmp_of_sortable (hof.trans (ofKind_of_mem_columnValues hcol hrows hd).symm)
          (hof ▸ hs), Bytes.cmp_eq_gt, ge_iff_le, not_le]
      exact ⟨some w, by simp [Acc.add, Agg.column, hv, hw], by simp, hnew⟩
  | avg c => exact hagg.elim

/-- **All the rows.** -/
theorem holds_foldl (hagg : agg.IsExact schema)
    (hrows : ∀ row ∈ rows, RowTyped schema agg.column.toList row) :
    Holds schema rows agg (rows.foldl (fun acc row ↦ acc.add agg schema row) (new agg)) := by
  induction rows using List.reverseRecOn with
  | nil => exact holds_new hagg
  | append_singleton rows row ih =>
    rw [List.foldl_append]
    exact (ih fun r hr ↦ hrows r (List.mem_append_left _ hr)).add hagg
      (fun r hr ↦ hrows r (List.mem_append_left _ hr)) (hrows row (by simp))

theorem finish_sum (table : String) (ints : ℤ) (floats : F64) :
    finish table (.sum ints floats false true) =
      .int <$> .ofOption (sumOverflows table) (Int64.tryFrom ints) := rfl

/-- **What the state answers**: the value of the aggregate, or an error for a sum that does not
fit. -/
theorem Holds.finish (h : Holds schema rows agg acc) (table : String) :
    (agg.Overflows schema rows → acc.finish table = .error (sumOverflows table)) ∧
      (¬ agg.Overflows schema rows →
        ∃ v, acc.finish table = .ok v ∧ agg.IsValue schema rows v) := by
  cases agg with
  | count =>
    subst h
    exact ⟨False.elim, fun _ ↦ ⟨_, rfl, rfl⟩⟩
  | countColumn c =>
    subst h
    exact ⟨False.elim, fun _ ↦ ⟨_, rfl, rfl⟩⟩
  | sum c =>
    subst h
    by_cases hnil : columnValues schema c rows = []
    · refine ⟨fun hnot ↦ absurd ?_ hnot, fun _ ↦ ⟨.null, ?_, if_pos hnil |>.mpr rfl⟩⟩
      · rw [hnil]
        exact Int64.fits_zero
      · rw [hnil]
        rfl
    · have hseen : (!(columnValues schema c rows).isEmpty) = true := by simpa using hnil
      rw [hseen]
      refine ⟨fun hnot ↦ ?_, fun hfits ↦ ?_⟩
      · rw [finish_sum, Int64.tryFrom_of_not_fits hnot]
        rfl
      · have hfits := not_not.mp hfits
        refine ⟨.int (.ofInt (intSum (columnValues schema c rows))), ?_, ?_⟩
        · rw [finish_sum, Int64.tryFrom_of_fits hfits]
          rfl
        · rw [IsValue, if_neg hnil]
          exact ⟨_, rfl, Int64.toInt_ofInt_of_fits hfits⟩
  | min c =>
    obtain ⟨cur, rfl, -, hbest⟩ := h
    exact ⟨False.elim, fun _ ↦ ⟨_, rfl, hbest⟩⟩
  | max c =>
    obtain ⟨cur, rfl, -, hbest⟩ := h
    exact ⟨False.elim, fun _ ↦ ⟨_, rfl, hbest⟩⟩
  | avg c => exact h.elim

end Agg.Acc
