import Bkndb.Relational.Catalog
import Bkndb.Relational.Expr

/-!
# Queries

Planning an access path (`relational/query/plan.rs`) and executing a query over it
(`relational/query/exec.rs`). Row iterators are lists, of rows that may fail to decode.

## Access paths

In the order in which they are tried: a lookup by primary key, an equality on an indexed column, a
range of primary keys, a prefix of an indexed string, a range of an indexed column, and a scan of
the table.

## Two ways to a page

Without an order, or on a path that yields it, rows are streamed and the query stops when the page
is full. Otherwise all matching rows are collected and sorted, and the page is cut out.

A row that does not decode is an error when it is reached, and not before.
-/

open PropValue

/-- A query: filters, all required, then ordering, paging and projection. -/
structure Query where
  filters : List Expr := []
  order : List (String × Order) := []
  offset : ℕ := 0
  limit : Option ℕ := none
  columns : Option (List String) := none

/-- How candidate rows are fetched before the filters are applied. -/
inductive Access where
  | pkGet (pks : List PropValue)
  | indexEq (column : String) (vs : List PropValue)
  | pkRange (lo hi : Bound PropValue)
  | indexPrefix (column p : String)
  | indexRange (column : String) (lo hi : Bound PropValue)
  | scan

namespace Query

/-- The first name that is not a column, nor a path into one where paths are allowed. -/
def unknownColumn (q : Query) (schema : TableSchema) : Option String :=
  let paths := Expr.columnsAll q.filters ++ q.order.map Prod.fst
  (paths.find? fun p ↦ (rootColumn schema p).isNone).or
    ((q.columns.getD []).find? fun n ↦ (schema.column n).isNone)

/-- Every name used must be a column. -/
def checkColumns (q : Query) (schema : TableSchema) : Except BknError Unit :=
  match q.unknownColumn schema with
  | some name => .error (.schemaMismatch schema.name s!"unknown column '{name}'")
  | none => .ok ()

/-- Whether a row satisfies the filters. -/
def matchesRow [Unicode] (q : Query) (schema : TableSchema) (row : Row) : Bool :=
  q.filters.all (Expr.eval schema row)

end Query

/-! ## Planning -/

mutual

/-- The filters with conjunctions flattened. -/
def conjuncts : List Expr → List Expr
  | [] => []
  | e :: es => conjunctsOf e ++ conjuncts es

/-- The conjuncts of one filter. -/
def conjunctsOf : Expr → List Expr
  | .and es => conjuncts es
  | e => [e]

end

/-- Whether a value can be looked up in a key or index over a column of the kind. -/
def usableKey (kind : ColumnKind) (v : PropValue) : Bool :=
  ColumnKind.of v = kind ∧ (sortableKey v).isSome

/-- Add a value unless its key was seen. -/
def dedupStep (st : List Bytes × List PropValue) (v : PropValue) : List Bytes × List PropValue :=
  match sortableKey v with
  | some k => if k ∈ st.1 then st else (k :: st.1, st.2 ++ [v])
  | none => st

/-- The values with distinct keys, first occurrences kept. -/
def dedupValues (vs : List PropValue) : List PropValue := (vs.foldl dedupStep ([], [])).2

/-- The endpoint of a bound. -/
def Bound.endpoint {α : Type} : Bound α → Option α
  | included a | excluded a => some a
  | unbounded => none

/-- The tighter of two bounds on one side. -/
def tighter (current new : Bound PropValue) (lower : Bool) : Bound PropValue :=
  match current.endpoint, new.endpoint with
  | none, _ => new
  | _, none => current
  | some cur, some v =>
    match compareValues v cur with
    | some .eq => match new with
      | .excluded _ => new
      | _ => current
    | some o => if (o == .gt) == lower then new else current
    | none => current

/-- Narrow the range of a column by one conjunct. -/
def rangeStep (column : String) (kind : ColumnKind) (st : Bound PropValue × Bound PropValue) :
    Expr → Bound PropValue × Bound PropValue
  | .cmp c op v =>
    if c ≠ column ∨ usableKey kind v = false then st
    else match op with
      | .gt => (tighter st.1 (.excluded v) true, st.2)
      | .ge => (tighter st.1 (.included v) true, st.2)
      | .lt => (st.1, tighter st.2 (.excluded v) false)
      | .le => (st.1, tighter st.2 (.included v) false)
      | _ => st
  | _ => st

/-- The range the conjuncts confine a column to, if they do. -/
def rangeBounds (conj : List Expr) (column : String) (kind : ColumnKind) :
    Option (Bound PropValue × Bound PropValue) :=
  match conj.foldl (rangeStep column kind) (.unbounded, .unbounded) with
  | (.unbounded, .unbounded) => none
  | range => some range

/-- The primary keys a conjunct pins. -/
def pinsPk (pk : String) (kind : ColumnKind) : Expr → Option (List PropValue)
  | .cmp c .eq v => if c = pk ∧ usableKey kind v = true then some [v] else none
  | .in c vs => if c = pk ∧ vs.all (usableKey kind) = true then some (dedupValues vs) else none
  | _ => none

/-- The values of an indexed column a conjunct pins. -/
def pinsIndexed (schema : TableSchema) : Expr → Option (String × List PropValue)
  | .cmp c .eq v =>
    if schema.isIndexed c ∧ (schema.column c).any (fun k ↦ usableKey k.kind v) then some (c, [v])
    else none
  | .in c vs =>
    if schema.isIndexed c ∧ (schema.column c).any (fun k ↦ vs.all (usableKey k.kind)) then
      some (c, dedupValues vs)
    else none
  | _ => none

/-- The prefix of an indexed string column a conjunct asks for. -/
def pinsPrefix (schema : TableSchema) : Expr → Option (String × String)
  | .startsWith c p =>
    if schema.isIndexed c ∧ (schema.column c).any (·.kind = .str) ∧ p.utf8.contains 0 = false then
      some (c, p)
    else none
  | _ => none

/-- Choose an access path. -/
def plan (schema : TableSchema) (filters : List Expr) : Except BknError Access := do
  let conj := conjuncts filters
  let pk := schema.primaryKey
  let pkKind := (← schema.primaryKeyColumn).kind
  match conj.findSome? (pinsPk pk pkKind) with
  | some pks => return .pkGet pks
  | none =>
  match conj.findSome? (pinsIndexed schema) with
  | some (c, vs) => return .indexEq c vs
  | none =>
  match rangeBounds conj pk pkKind with
  | some (lo, hi) => return .pkRange lo hi
  | none =>
  match conj.findSome? (pinsPrefix schema) with
  | some (c, p) => return .indexPrefix c p
  | none =>
  let range := schema.indexedColumns.findSome? fun c ↦
    (schema.column c).bind fun k ↦ (rangeBounds conj c k.kind).map fun r ↦ (c, r)
  match range with
  | some (c, lo, hi) => return .indexRange c lo hi
  | none => return .scan

namespace TableStore

/-! ## Fetching -/

/-- The rows between two keys, each decoded as it is reached. -/
def decodeBaseRows (t : TableStore) (schema : TableSchema) (lo hi : Bound Bytes) :
    Except BknError (List (Except BknError Row)) := do
  let pk ← schema.primaryKeyColumn
  return (t.rows.range lo hi).map (decodeBaseRow pk.kind)

/-- The candidate rows of an access path. -/
def candidates (t : TableStore) (schema : TableSchema) :
    Access → Except BknError (List (Except BknError Row))
  | .pkGet pks => return (pks.filterMap t.getIn).map .ok
  | .indexEq c vs => do
    let rows ← vs.mapM (t.indexLookupEqIn schema c)
    return rows.flatten.map .ok
  | .pkRange lo hi => do
    let lo ← lowerBoundBytes lo
    let hi ← upperBoundBytes hi
    t.decodeBaseRows schema lo hi
  | .indexPrefix c p => do
    let rows ← t.indexLookupPrefixIn schema c p
    return rows.map .ok
  | .indexRange c lo hi => do
    let rows ← t.indexLookupRangeIn schema c lo hi
    return rows.map .ok
  | .scan => t.decodeBaseRows schema .unbounded .unbounded

variable [Unicode]

/-- Keep the rows a query accepts, and every failure. -/
def keepMatching (schema : TableSchema) (q : Query) : Except BknError Row → Bool
  | .ok row => q.matchesRow schema row
  | .error _ => true

/-- Every row matching the filters, from the chosen access path. -/
def matchingRows (t : TableStore) (schema : TableSchema) (q : Query) :
    Except BknError (List (Except BknError Row)) := do
  let access ← plan schema q.filters
  let rows ← t.candidates schema access
  return rows.filter (keepMatching schema q)

/-! ## Executing -/

/-- The comparison of `ORDER BY`. -/
def orderCmp (schema : TableSchema) (a b : Row) : List (String × Order) → Ordering
  | [] => .eq
  | (c, order) :: rest =>
    let o := totalCmp (resolve schema a c) (resolve schema b c)
    (if order = .desc then o.swap else o).then (orderCmp schema a b rest)

/-- Stream candidates until enough rows matched. -/
def collectMatching (schema : TableSchema) (q : Query) (wanted : Option ℕ) :
    List Row → List (Except BknError Row) → Except BknError (List Row)
  | out, [] => .ok out
  | out, row :: rest =>
    if wanted.any (· ≤ out.length) then .ok out
    else do
      let row ← row
      collectMatching schema q wanted (if q.matchesRow schema row then out ++ [row] else out) rest

/-- Whether a path already yields the requested order. -/
def presorted (schema : TableSchema) (q : Query) (access : Access) : Bool :=
  (match access with
    | .scan | .pkRange _ _ => true
    | _ => false) && q.order = [(schema.primaryKey, .asc)]

/-- The streaming path: no sort, stop once `offset + limit` rows matched. -/
def selectStreaming (t : TableStore) (schema : TableSchema) (q : Query) (access : Access) :
    Except BknError (List Row) := do
  let wanted := q.limit.map (· + q.offset)
  let rows ← t.candidates schema access
  let out ← collectMatching schema q wanted [] rows
  return out.drop q.offset

/-- The sorting path: a stable sort, then the window. -/
def selectSorted (t : TableStore) (schema : TableSchema) (q : Query) :
    Except BknError (List Row) := do
  let rows ← t.matchingRows schema q
  let all ← rows.mapM id
  let all := all.mergeSort fun a b ↦ (orderCmp schema a b q.order).isLE
  let start := min q.offset all.length
  let stop := (q.limit.map fun l ↦ min (start + l) all.length).getD all.length
  return (all.take stop).drop start

/-- Keep only the requested columns. -/
def project (q : Query) (row : Row) : Row :=
  match q.columns with
  | none => row
  | some cols => ⟨row.pk, row.values.filter fun k _ ↦ cols.contains k⟩

/-- Run a query. -/
def selectIn (t : TableStore) (schema : TableSchema) (q : Query) : Except BknError (List Row) := do
  q.checkColumns schema
  let access ← plan schema q.filters
  let rows ←
    if q.order = [] ∨ presorted schema q access = true then t.selectStreaming schema q access
    else t.selectSorted schema q
  return rows.map (project q)

/-- The number of rows matching the filters. -/
def countIn (t : TableStore) (schema : TableSchema) (q : Query) : Except BknError ℕ := do
  q.checkColumns schema
  let rows ← t.matchingRows schema q
  let rows ← rows.mapM id
  return rows.length

variable {D : Type} [LinearOrder D] (g : Ann.Geometry D)

/-- Set columns to values, in order. -/
def applySets (sets : List (String × PropValue)) (values : Properties) : Properties :=
  sets.foldl (fun values e ↦ values.insert e.1 e.2) values

/-- Apply sets to every selected row; how many changed. -/
def updateIn (t : TableStore) (schema : TableSchema) (q : Query)
    (sets : List (String × PropValue)) : Except BknError (ℕ × TableStore) := do
  match sets.find? fun e ↦ e.1 == schema.primaryKey with
  | some (c, _) =>
    throw (.schemaMismatch schema.name s!"cannot set primary key column '{c}' via update")
  | none => pure ()
  let targets ← t.selectIn schema { q with columns := none }
  targets.foldlM (fun st row ↦ do
    let (changed, t) ← st.2.updateRowIn g schema row.pk (applySets sets)
    return (st.1 + changed.toNat, t)) (0, t)

/-- Delete every selected row; how many were removed. -/
def deleteIn (t : TableStore) (schema : TableSchema) (q : Query) :
    Except BknError (ℕ × TableStore) := do
  let targets ← t.selectIn schema { q with columns := none }
  targets.foldlM (fun st row ↦ do
    let (removed, t) ← st.2.deleteRowIn g schema row.pk
    return (st.1 + removed.toNat, t)) (0, t)

end TableStore
