import Bkndb.Relational.Table

/-!
# Filter expressions

Predicates over a row (`relational/expr.rs`). Comparisons against a missing or null value are false,
and so are comparisons between kinds that do not compare.

## Null

A comparison with a missing or null value is false, and the negation of a false predicate is true:
there is no third truth value. `x <> 5` is false for a row without `x`, and `NOT (x = 5)` is true.

## References

A name with dots in it is first looked up as a column; otherwise its first part is the column and
the rest a path into a map or a list.
-/

/-- A comparison operator. -/
inductive CmpOp where
  | eq
  | ne
  | lt
  | le
  | gt
  | ge
  deriving DecidableEq, Repr

/-- Whether an operator accepts an ordering. -/
def CmpOp.holds : CmpOp → Ordering → Bool
  | eq, o => o == .eq
  | ne, o => o != .eq
  | lt, o => o == .lt
  | le, o => o != .gt
  | gt, o => o == .gt
  | ge, o => o != .lt

/-- A boolean predicate over one row. -/
inductive Expr where
  | cmp (column : String) (op : CmpOp) (v : PropValue)
  | in (column : String) (vs : List PropValue)
  | isNull (column : String)
  | isNotNull (column : String)
  /-- A string column starts with the given prefix. -/
  | startsWith (column : String) (p : String)
  /-- A list has an equal element, a string the substring, a map the key. -/
  | contains (column : String) (needle : PropValue)
  /-- SQL `LIKE`; the flag ignores case. -/
  | like (column : String) (pattern : String) (ci : Bool)
  | and (es : List Expr)
  | or (es : List Expr)
  | not (e : Expr)

/-- Sort direction. -/
inductive Order where
  | asc
  | desc
  deriving DecidableEq, Repr

/-! ## Column references -/

/-- `str::split_once('.')`. -/
def splitOnce (name : String) : Option (String × String) :=
  if '.' ∈ name.toList then
    some (.ofList (name.toList.takeWhile (· ≠ '.')),
      .ofList (name.toList.dropWhile (· ≠ '.')).tail)
  else none

/-- `str::split('.')`. -/
def splitDots (s : String) : List String := (s.toList.splitOn '.').map .ofList

/-- The value a reference names: a column, or a dotted path into one. -/
def resolve (schema : TableSchema) (row : Row) (name : String) : Option PropValue :=
  if (schema.column name).isSome then row.get schema name
  else do
    let (head, rest) ← splitOnce name
    (← row.get schema head).getPath (splitDots rest)

/-- The column a reference is rooted at. -/
def rootColumn (schema : TableSchema) (name : String) : Option String :=
  if (schema.column name).isSome then some name
  else do
    let (head, _) ← splitOnce name
    (schema.column head).map fun _ ↦ head

namespace Expr

variable [Unicode]

mutual

/-- Whether a row satisfies the predicate. -/
def eval (schema : TableSchema) (row : Row) : Expr → Bool
  | cmp c op v =>
    let value := nonNull (resolve schema row c)
    if v.isNull then
      -- `eq(Null)` and `ne(Null)` read as null tests
      match op with
      | .eq => value.isNone
      | .ne => value.isSome
      | _ => false
    else (value.bind (·.compareValues v)).any op.holds
  | .in c vs =>
    (nonNull (resolve schema row c)).any fun v ↦ vs.any fun x ↦ v.compareValues x == some .eq
  | isNull c => (nonNull (resolve schema row c)).isNone
  | isNotNull c => (nonNull (resolve schema row c)).isSome
  | startsWith c p =>
    match nonNull (resolve schema row c) with
    | some (.str s) => p.utf8.isPrefixOf s.utf8
    | _ => false
  | contains c needle =>
    match nonNull (resolve schema row c), needle with
    | some (.list items), n => items.any fun x ↦ x.compareValues n == some .eq
    | some (.str s), .str n => decide (n.utf8 <:+: s.utf8)
    | some (.map m), .str k => m.any (·.1 == k)
    | _, _ => false
  | like c pattern ci =>
    match nonNull (resolve schema row c) with
    | some (.str s) => likeMatches s pattern ci
    | _ => false
  | and es => evalAll schema row es
  | or es => evalAny schema row es
  | not e => !eval schema row e

/-- Whether a row satisfies every predicate. -/
def evalAll (schema : TableSchema) (row : Row) : List Expr → Bool
  | [] => true
  | e :: es => eval schema row e && evalAll schema row es

/-- Whether a row satisfies some predicate. -/
def evalAny (schema : TableSchema) (row : Row) : List Expr → Bool
  | [] => false
  | e :: es => eval schema row e || evalAny schema row es

end

mutual

/-- The column references of a predicate, left to right. -/
def columns : Expr → List String
  | cmp c _ _ | .in c _ | isNull c | isNotNull c | startsWith c _ | contains c _ | like c _ _ => [c]
  | and es | or es => columnsAll es
  | not e => columns e

/-- The column references of several predicates. -/
def columnsAll : List Expr → List String
  | [] => []
  | e :: es => columns e ++ columnsAll es

end

@[simp] theorem evalAll_eq_all (schema : TableSchema) (row : Row) (es : List Expr) :
    evalAll schema row es = es.all (eval schema row) := by
  induction es with
  | nil => rfl
  | cons e es ih => rw [evalAll, ih, List.all_cons]

end Expr
