import Bkndb.Core.Serialize
import Bkndb.Core.TotalCmp
import Bkndb.Lang.AggState
import Bkndb.Lang.MatchFind

/-!
# What a query returns

The second half of `execute` in `lang/graph/project.rs`: the matches become rows, one for each of
them, or one for each group of them when something is aggregated. Then duplicates go, the rows are
put in order, and a part of them is returned. A search that stopped at the limit has found enough
for that part, and `count(*)` counts the accepted matches.

## Main results

* `page_of_run`: with `SKIP` and `LIMIT` a plain query returns that part of the rows of all its
  matches, although its search stops when it has enough.
* `count_of_run`: `count(*)` counts each accepted match once, also when there are none.
* `wellFormed_of_execute`: whatever the query, a result has a value for every column, no more rows
  than asked for, and with `DISTINCT` no row twice.

## Plain queries

The search may stop early only if later matches cannot matter: without aggregates, `DISTINCT` and
`ORDER BY` (`streamingLimit`). It then stops at the number of rows that are returned and skipped
together, and the part that is returned is the same.
-/

open Graph

/-- What is returned in a column. -/
inductive ReturnExpr where
  | expr (e : GExpr)
  /-- Without an argument only for `count(*)`. -/
  | agg (f : GAgg) (arg : Option GExpr)

/-- A column of the result. -/
structure ReturnItem where
  expr : ReturnExpr
  name : String

inductive SortOrder where
  | asc
  | desc
  deriving DecidableEq, Repr

/-- What rows are ordered by: an output column, or an expression. -/
inductive OrderKey where
  | column (i : ℕ)
  | expr (e : GExpr)

/-- A query with the clauses that follow its filter. -/
structure MatchStatement extends MatchQuery where
  distinct : Bool := false
  /-- None is `RETURN *`. -/
  returns : List ReturnItem := []
  order : List (OrderKey × SortOrder) := []

/-- The columns and the rows of a result. -/
structure QueryResult where
  columns : List String
  rows : List (List PropValue)
  affected : ℕ := 0

/-- The expressions among the columns. -/
def exprsOf (items : List ReturnItem) : List GExpr :=
  items.filterMap fun
    | ⟨.expr e, _⟩ => some e
    | _ => none

/-- The aggregates among the columns. -/
def aggsOf (items : List ReturnItem) : List (GAgg × Option GExpr) :=
  items.filterMap fun
    | ⟨.agg f arg, _⟩ => some (f, arg)
    | _ => none

namespace MatchStatement

variable (st : MatchStatement)

def aggregating : Bool := !(aggsOf st.returns).isEmpty

/-- How many matches are enough, if later ones cannot matter. -/
def streamingLimit (skip : ℕ) (limit : Option ℕ) : Option ℕ :=
  if !st.aggregating && !st.distinct && st.order.isEmpty then limit.map (· + skip) else none

/-- The columns of the result. -/
def items : Except BknError (List ReturnItem) :=
  if st.returns.isEmpty then do return (← st.varKinds).keys.map fun v ↦ ⟨.expr (.var v), v⟩
  else return st.returns

/-- The comparison of `ORDER BY`, of rows with their extra sort keys. -/
def orderCmp : List (OrderKey × SortOrder) → List PropValue × List PropValue →
    List PropValue × List PropValue → Ordering
  | [], _, _ => .eq
  | (.column i, dir) :: order, (ra, ka), (rb, kb) =>
    let o := PropValue.totalCmp ra[i]? rb[i]?
    (if dir = .desc then o.swap else o).then (orderCmp order (ra, ka) (rb, kb))
  | (.expr _, dir) :: order, (ra, ka), (rb, kb) =>
    let o := PropValue.totalCmp ka.head? kb.head?
    (if dir = .desc then o.swap else o).then (orderCmp order (ra, ka.tail) (rb, kb.tail))

/-- Rows without duplicates if that is asked for, in the order asked for. -/
def arrange (rows : List (List PropValue × List PropValue)) :
    List (List PropValue × List PropValue) :=
  let rows := if st.distinct then Grouping.keepFirst (fun r ↦ PropValue.serializeKey r.1) [] rows
    else rows
  if st.order.isEmpty then rows else rows.mergeSort fun a b ↦ (orderCmp st.order a b).isLE

end MatchStatement

namespace Match.Exec

variable (ex : Exec)

/-- The row of a match, with the values it is ordered by. -/
def plainRow (items : List ReturnItem) (order : List (OrderKey × SortOrder)) (b : Binding) :
    Except BknError (List PropValue × List PropValue) := do
  let row ← items.mapM fun item ↦
    match item.expr with
    | .expr e => ex.eval b e
    | .agg _ _ => .error (.panic "internal error: entered unreachable code")
  let keys ← (order.filterMap fun
    | (.expr e, _) => some e
    | _ => none).mapM (ex.eval b)
  return (row, keys)

/-- The groups of the matches, with the states of their aggregates. -/
abbrev MatchGroups := Grouping.Groups (List PropValue) Bytes (List AggState)

/-- Every aggregate of a group takes a match. -/
def addAll (b : Binding) :
    List (GAgg × Option GExpr) → List AggState → Except BknError (List AggState)
  | (f, arg) :: aggs, s :: states => do
    let v ← arg.mapM (ex.eval b)
    let s ← s.add f v
    return s :: (← addAll b aggs states)
  | _, states => return states

/-- One match joins its group. -/
def groupMatch (items : List ReturnItem) (groups : MatchGroups) (b : Binding) :
    Except BknError MatchGroups := do
  let key ← (exprsOf items).mapM (ex.eval b)
  let (i, groups) := Grouping.slot PropValue.serializeKey
    ((aggsOf items).map fun a ↦ AggState.new a.1) groups key
  let states ← ex.addAll b (aggsOf items) (← nth groups.entries i).2
  return groups.update i fun _ ↦ states

/-- The row of a group. -/
def finishRow : List ReturnItem → List PropValue → List AggState →
    Except BknError (List PropValue)
  | [], _, _ => .ok []
  | ⟨.expr _, _⟩ :: items, v :: key, states => do return v :: (← finishRow items key states)
  | ⟨.agg _ _, _⟩ :: items, key, s :: states => do
    return s.finish :: (← finishRow items key states)
  | _, _, _ => .error (.panic "called `Option::unwrap()` on a `None` value")

/-- The rows of the groups. Aggregates over no matches still produce one row. -/
def groupedRows (items : List ReturnItem) (found : List Binding) :
    Except BknError (List (List PropValue)) := do
  let groups ← found.foldlM (ex.groupMatch items) ⟨[], ∅⟩
  let entries := if groups.entries.isEmpty && (exprsOf items).isEmpty
    then [([], (aggsOf items).map fun a ↦ AggState.new a.1)] else groups.entries
  entries.mapM fun e ↦ finishRow items e.1 e.2

/-- The rows of the matches, with the values they are ordered by. -/
def rowsOf (st : MatchStatement) (items : List ReturnItem) (found : List Binding) :
    Except BknError (List (List PropValue × List PropValue)) :=
  if st.aggregating then do return (← ex.groupedRows items found).map (·, [])
  else found.mapM (ex.plainRow items st.order)

/-- Run a query, with a bound on the iterations for each candidate. -/
def execute [Unicode] (store : GraphStore) (st : MatchStatement) (params : Params)
    (fuel skip : ℕ) (limit : Option ℕ) : Except BknError QueryResult := do
  let ex ← prepare store st.toMatchQuery params
  let found ← ex.findMatches fuel (st.streamingLimit skip limit)
  let items ← st.items
  let rows := (st.arrange (← ex.rowsOf st items found)).drop skip
  return ⟨items.map (·.name), (rows.take (limit.getD rows.length)).map Prod.fst, 0⟩

end Match.Exec

/-- What a result promises. -/
structure QueryResult.WellFormed (r : QueryResult) (distinct : Bool) (limit : Option ℕ) : Prop where
  width : ∀ row ∈ r.rows, row.length = r.columns.length
  atMost : ∀ l, limit = some l → r.rows.length ≤ l
  nodup : distinct = true → r.rows.Nodup

/-! ## A part of the matches -/

/-- A query that returns a row for each match, as they are found. -/
structure MatchStatement.Plain (st : MatchStatement) : Prop where
  aggregating : st.aggregating = false
  distinct : st.distinct = false
  order : st.order = []

namespace MatchStatement.Plain

variable {st : MatchStatement}

theorem streamingLimit (h : st.Plain) (skip : ℕ) (limit : Option ℕ) :
    st.streamingLimit skip limit = limit.map (· + skip) := by
  simp [MatchStatement.streamingLimit, h.aggregating, h.distinct, h.order]

theorem arrange (h : st.Plain) (rows : List (List PropValue × List PropValue)) :
    st.arrange rows = rows := by
  simp [MatchStatement.arrange, h.distinct, h.order]

end MatchStatement.Plain

namespace Match.Exec

variable {ex : Exec} {store : GraphStore} {st : MatchStatement} {params : Params}
  {items : List ReturnItem} {found : List Binding} {name : String} {b : Binding}

theorem take_drop_take {α : Type} {n s k : ℕ} (h : k + s ≤ n) (l : List α) :
    ((l.take n).drop s).take k = (l.drop s).take k := by
  rw [List.drop_take, List.take_take, min_eq_left (by omega)]

theorem execute_of_found [Unicode] (hprepare : prepare store st.toMatchQuery params = .ok ex)
    {fuel : ℕ} (skip : ℕ) (limit : Option ℕ)
    (hfound : ex.findMatches fuel (st.streamingLimit skip limit) = .ok found)
    (hitems : st.items = .ok items) {rows : List (List PropValue × List PropValue)}
    (hrows : ex.rowsOf st items found = .ok rows) :
    execute store st params fuel skip limit = .ok ⟨items.map (·.name),
      (((st.arrange rows).drop skip).take (limit.getD ((st.arrange rows).drop skip).length)).map
        Prod.fst, 0⟩ := by
  rw [execute, hprepare, Except.ok_bind, hfound, Except.ok_bind, hitems, Except.ok_bind, hrows]
  rfl

/-- A plain query returns the rows of the matches. -/
theorem execute_of_plain [Unicode] (hplain : st.Plain)
    (hprepare : prepare store st.toMatchQuery params = .ok ex) (hitems : st.items = .ok items)
    {fuel : ℕ} (skip : ℕ) (limit : Option ℕ)
    (hfound : ex.findMatches fuel (limit.map (· + skip)) = .ok found)
    {rows : List (List PropValue × List PropValue)}
    (hrows : found.mapM (ex.plainRow items st.order) = .ok rows) :
    execute store st params fuel skip limit = .ok ⟨items.map (·.name),
      ((rows.drop skip).take (limit.getD (rows.drop skip).length)).map Prod.fst, 0⟩ := by
  have hplainRows : ex.rowsOf st items found = .ok rows := by
    rw [rowsOf, hplain.aggregating, if_neg Bool.false_ne_true, hrows]
  rw [← hplain.streamingLimit] at hfound
  rw [execute_of_found hprepare skip limit hfound hitems hplainRows, hplain.arrange]

/-- **The page of a plain query**: stopping early changes nothing. -/
theorem Prepared.page [Unicode] (h : ex.Prepared) {a : Anchor} (ha : ex.chooseAnchor = .ok a)
    (hplain : st.Plain) (hprepare : prepare store st.toMatchQuery params = .ok ex)
    (hitems : st.items = .ok items) (skip : ℕ) (limit : Option ℕ) : ∃ k, ∀ fuel, k ≤ fuel →
      ∀ found rows, ex.findMatches fuel none = .ok found →
        found.mapM (ex.plainRow items st.order) = .ok rows →
          execute store st params fuel skip limit = .ok ⟨items.map (·.name),
            ((rows.map Prod.fst).drop skip).take (limit.getD rows.length), 0⟩ := by
  cases limit with
  | none =>
    refine ⟨0, fun fuel _ found rows hfound hrows ↦ ?_⟩
    rw [execute_of_plain hplain hprepare hitems skip none hfound hrows, Option.getD_none,
      Option.getD_none, List.take_length, List.map_drop, List.take_of_length_le (by simp)]
  | some l =>
    obtain ⟨k, hk⟩ := h.take ha (l + skip)
    refine ⟨k, fun fuel hfuel found rows hfound hrows ↦ ?_⟩
    have hpart : (found.take (max (l + skip) 1)).mapM (ex.plainRow items st.order) =
        .ok (rows.take (max (l + skip) 1)) :=
      Except.mapM_eq_ok_iff.mpr (List.forall₂_take _ (Except.mapM_eq_ok_iff.mp hrows))
    rw [execute_of_plain hplain hprepare hitems skip (some l) (hk fuel hfuel found hfound) hpart,
      Option.getD_some, Option.getD_some, take_drop_take (le_max_left _ _), List.map_take,
      List.map_drop]

/-! ## Counting

A query that only counts has one group, whose key has no values. The group is made with the first
match, or with the rows when there was no match. -/

theorem length_of_mapM {α β : Type} {f : α → Except BknError β} {l : List α} {r : List β}
    (h : l.mapM f = .ok r) : r.length = l.length :=
  (Except.mapM_eq_ok_iff.mp h).length_eq.symm

theorem length_plainRow {order : List (OrderKey × SortOrder)}
    {r : List PropValue × List PropValue} (h : ex.plainRow items order b = .ok r) :
    r.1.length = items.length := by
  obtain ⟨row, hrow, h⟩ := Except.bind_eq_ok.mp h
  obtain ⟨keys, -, h⟩ := Except.bind_eq_ok.mp h
  obtain rfl := Except.ok.inj h
  exact length_of_mapM hrow

theorem length_finishRow {key row : List PropValue} {states : List AggState}
    (h : finishRow items key states = .ok row) : row.length = items.length := by
  induction items generalizing key states row with
  | nil =>
    rw [finishRow] at h
    obtain rfl := Except.ok.inj h
    rfl
  | cons item items ih =>
    obtain ⟨e, n⟩ := item
    cases e with
    | expr e =>
      cases key with
      | nil => simp [finishRow] at h
      | cons v key =>
        rw [finishRow] at h
        obtain ⟨rest, hrest, h⟩ := Except.bind_eq_ok.mp h
        obtain rfl := Except.ok.inj h
        rw [List.length_cons, List.length_cons, ih hrest]
    | agg f arg =>
      cases states with
      | nil => simp [finishRow] at h
      | cons s states =>
        rw [finishRow] at h
        obtain ⟨rest, hrest, h⟩ := Except.bind_eq_ok.mp h
        obtain rfl := Except.ok.inj h
        rw [List.length_cons, List.length_cons, ih hrest]

theorem length_rowsOf {rows : List (List PropValue × List PropValue)}
    (h : ex.rowsOf st items found = .ok rows) : ∀ r ∈ rows, r.1.length = items.length := by
  rw [rowsOf] at h
  split_ifs at h with hagg
  · obtain ⟨grouped, hgrouped, h⟩ := Except.bind_eq_ok.mp h
    obtain rfl := Except.ok.inj h
    obtain ⟨groups, -, hgrouped⟩ := Except.bind_eq_ok.mp hgrouped
    intro r hr
    obtain ⟨row, hrow, rfl⟩ := List.mem_map.mp hr
    obtain ⟨e, -, he⟩ := (Except.mapM_eq_ok_iff.mp hgrouped).exists_left hrow
    exact length_finishRow he
  · intro r hr
    obtain ⟨b, -, hb⟩ := (Except.mapM_eq_ok_iff.mp h).exists_left hr
    exact length_plainRow hb

theorem arrange_perm (rows : List (List PropValue × List PropValue)) :
    (st.arrange rows).Perm (if st.distinct then
      Grouping.keepFirst (fun r ↦ PropValue.serializeKey r.1) [] rows else rows) := by
  rw [MatchStatement.arrange]
  split_ifs with horder
  · exact .rfl
  · exact .rfl
  · exact List.mergeSort_perm _ _
  · exact List.mergeSort_perm _ _

theorem subset_arrange (rows : List (List PropValue × List PropValue)) :
    st.arrange rows ⊆ rows := by
  intro r hr
  have hmem := (arrange_perm rows).mem_iff.mp hr
  split_ifs at hmem
  · exact Grouping.keepFirst_sublist.subset hmem
  · exact hmem

/-- **`DISTINCT`** leaves no row twice. -/
theorem nodup_arrange (h : st.distinct = true) (rows : List (List PropValue × List PropValue)) :
    ((st.arrange rows).map Prod.fst).Nodup := by
  have hperm : (st.arrange rows).Perm _ := arrange_perm rows
  rw [if_pos h] at hperm
  refine ((hperm.map Prod.fst).nodup_iff).mpr (List.Nodup.of_map PropValue.serializeKey ?_)
  rw [List.map_map]
  exact Grouping.keepFirst_nodup.1

/-- **Results are well formed**: a value for every column, no more rows than asked for, and with
`DISTINCT` no row twice. -/
theorem wellFormed_of_execute [Unicode] {fuel skip : ℕ} {limit : Option ℕ} {r : QueryResult}
    (h : execute store st params fuel skip limit = .ok r) : r.WellFormed st.distinct limit := by
  obtain ⟨ex, -, h⟩ := Except.bind_eq_ok.mp h
  obtain ⟨found, -, h⟩ := Except.bind_eq_ok.mp h
  obtain ⟨items, -, h⟩ := Except.bind_eq_ok.mp h
  obtain ⟨rows, hrows, h⟩ := Except.bind_eq_ok.mp h
  obtain rfl := Except.ok.inj h
  refine ⟨fun row hrow ↦ ?_, fun l hl ↦ ?_, fun hdistinct ↦ ?_⟩
  · obtain ⟨r, hr, rfl⟩ := List.mem_map.mp hrow
    rw [List.length_map]
    have hmem := List.mem_of_mem_drop (List.mem_of_mem_take hr)
    exact length_rowsOf hrows r (subset_arrange rows hmem)
  · rw [hl, List.length_map]
    exact List.length_take_le _ _
  · rw [List.map_take, List.map_drop]
    have hpart := (List.take_sublist (limit.getD ((st.arrange rows).drop skip).length) _).trans
      (List.drop_sublist skip ((st.arrange rows).map Prod.fst))
    exact (nodup_arrange hdistinct rows).sublist hpart

end Match.Exec

namespace GraphRun

open Match Match.Exec

variable {st : MatchStatement} {params : Params} {ex : Exec} {a : Anchor}

/-- **Pages over runs.** A query without aggregates, duplicates to drop or an order returns, from
`SKIP` on and up to `LIMIT`, a part of the rows of all its matches: that its search stops early does
not show. -/
theorem page_of_run [Unicode] (txs : List (List GraphOp))
    (hshort : ∀ ops ∈ txs, ∀ op ∈ ops, op.ShortEdges) (hq : st.toMatchQuery.Valid)
    (hplain : st.Plain) {items : List ReturnItem} (hitems : st.items = .ok items)
    (hprepare : prepare (run txs).store st.toMatchQuery params = .ok ex)
    (ha : ex.chooseAnchor = .ok a) (skip : ℕ) (limit : Option ℕ) : ∃ k, ∀ fuel, k ≤ fuel →
      ∀ found rows, ex.findMatches fuel none = .ok found →
        found.mapM (ex.plainRow items st.order) = .ok rows →
          execute (run txs).store st params fuel skip limit = .ok ⟨items.map (·.name),
            ((rows.map Prod.fst).drop skip).take (limit.getD rows.length), 0⟩ := by
  obtain ⟨hprepared, -, -⟩ := prepared_of_prepare (ok_run hshort).consistent hq hprepare
  exact hprepared.page ha hplain hprepare hitems skip limit

/-- Whom somebody knows, by identifier. -/
def knownStatement : MatchStatement where
  toMatchQuery := knownQuery
  returns := [⟨.expr (.id "b"), "b"⟩]

theorem page_of_run_known : ∃ fuel,
    @execute Unicode.ascii (run knownTxs).store knownStatement {} fuel 1 (some 1) =
      .ok ⟨["b"], [[.int 3]], 0⟩ := by
  obtain ⟨k, hk⟩ := @page_of_run knownStatement {} knownExec _ Unicode.ascii knownTxs
    short_knownTxs valid_knownQuery ⟨rfl, rfl, rfl⟩ _ rfl rfl chooseAnchor_known 1 (some 1)
  exact ⟨k + 20, hk _ (by omega) _ [([.int 2], []), ([.int 3], []), ([.int 4], [])]
    (findMatches_known k) rfl⟩

/-- Who is known by somebody, each once. -/
def distinctStatement : MatchStatement where
  nodes := knownQuery.nodes
  rels := knownQuery.rels
  distinct := true
  returns := [⟨.expr (.id "b"), "b"⟩]

/-- Its four matches. -/
def distinctFound : List Binding :=
  [(⟨1⟩, ⟨2⟩, ⟨1⟩), (⟨1⟩, ⟨3⟩, ⟨2⟩), (⟨1⟩, ⟨4⟩, ⟨3⟩), (⟨2⟩, ⟨3⟩, ⟨4⟩)].map fun (a, b, r) ↦
    ((OrdMap.insert ∅ "a" (.node a)).insert "b" (.node b)).insert "r" (.rel r)

/-- The second of three rows, four matches having two rows in common. -/
theorem wellFormed_of_execute_distinct : ∃ r, r.rows = [[.int 3]] ∧
    @execute Unicode.ascii (run knownTxs).store distinctStatement {} 20 1 (some 1) = .ok r ∧
      r.WellFormed true (some 1) := by
  have hanchor : chooseAnchor ⟨(run knownTxs).store, distinctStatement.toMatchQuery, {}, [[], []],
      [[]]⟩ = .ok ⟨2, 0, none, none⟩ := by
    obtain ⟨indexes, hindexes, -⟩ :=
      GraphStore.propertyIndexesIn_spec (ok_run short_knownTxs).consistent.registry
    have heqs : topLevelEqualities ⟨(run knownTxs).store, distinctStatement.toMatchQuery, {},
        [[], []], [[]]⟩ = .ok [] := by
      simp [topLevelEqualities, distinctStatement, equalitiesOf]
    rw [chooseAnchor, heqs, Except.ok_bind, hindexes, Except.ok_bind]
    rfl
  have hexecute : @execute Unicode.ascii (run knownTxs).store distinctStatement {} 20 1 (some 1) =
      .ok ⟨["b"], [[.int 3]], 0⟩ := by
    have hfound : @findMatches ⟨(run knownTxs).store, distinctStatement.toMatchQuery, {}, [[], []],
        [[]]⟩ Unicode.ascii 20 none = .ok distinctFound := by
      rw [findMatches, hanchor, Except.ok_bind]
      rfl
    exact @execute_of_found _ _ distinctStatement {} _ _ Unicode.ascii rfl _ 1 (some 1) hfound rfl _ rfl
  exact ⟨_, rfl, hexecute, @wellFormed_of_execute _ distinctStatement _ Unicode.ascii _ _ _ _ hexecute⟩

end GraphRun
