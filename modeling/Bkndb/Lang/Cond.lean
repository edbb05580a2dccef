import Bkndb.Relational.Expr

/-!
# Conditions of SQL statements

Values with parameters in them (`lang/mod.rs`), the conditions of a `WHERE` clause
(`lang/sql/mod.rs`), and how a condition with its parameters becomes a filter expression
(`bind_expr` of `lang/sql/exec.rs`).

## Binding

A condition is bound to parameter values before it is evaluated: `bindExpr` turns it into a filter
expression of the relational layer, or fails, for a parameter that is not there or a pattern that
is not a string. There is one step that is more than a translation: a `LIKE` pattern with a single
`%` at its end becomes a test for a prefix.
-/

/-! ## Values with parameters -/

/-- A reference to a parameter. -/
inductive ParamRef where
  /-- 0-based position. -/
  | index (i : ℕ)
  | name (n : String)
  deriving DecidableEq, Repr

/-- Parameter values for a statement: positional and named. -/
structure Params where
  positional : List PropValue := []
  named : Properties := ∅

/-- A value in a statement: a literal, a parameter, or a list or map built from those. -/
inductive Operand where
  | lit (v : PropValue)
  | param (p : ParamRef)
  | list (items : List Operand)
  | map (entries : List (String × Operand))

namespace Operand

mutual

/-- The value an operand has under the given parameters. -/
def bind (params : Params) : Operand → Except BknError PropValue
  | lit v => .ok v
  | param (.index i) => .ofOption (.invalidQuery
      (s!"parameter {i + 1} is not bound ({params.positional.length} positional parameter(s) given)" :
        String)) params.positional[i]?
  | param (.name n) => .ofOption (.invalidQuery (s!"named parameter '{n}' is not bound" : String))
      (params.named.get? n)
  | list items => (bindAll params items).map .list
  | map entries => (bindEntries params ∅ entries).map fun m ↦ .map m.entries

/-- The values of several operands. -/
def bindAll (params : Params) : List Operand → Except BknError (List PropValue)
  | [] => .ok []
  | o :: items => do return (← bind params o) :: (← bindAll params items)

/-- The entries of a map, a later one with the same key taking the place of an earlier one. -/
def bindEntries (params : Params) (m : Properties) :
    List (String × Operand) → Except BknError Properties
  | [] => .ok m
  | (k, o) :: entries => do bindEntries params (m.insert k (← bind params o)) entries

end

end Operand

/-! ## Conditions -/

/-- A `WHERE` condition, with values still unbound. -/
inductive Cond where
  | cmp (path : String) (op : CmpOp) (v : Operand)
  | in (path : String) (values : List Operand) (negated : Bool)
  | isNull (path : String) (negated : Bool)
  | between (path : String) (low high : Operand) (negated : Bool)
  | like (path : String) (pattern : Operand) (caseInsensitive negated : Bool)
  | contains (path : String) (v : Operand)
  | and (parts : List Cond)
  | or (parts : List Cond)
  | not (inner : Cond)

/-- An expression, or its negation. -/
def Expr.negate (negated : Bool) (e : Expr) : Expr := if negated then .not e else e

/-- `pattern.strip_suffix('%')`, if what is left has no wildcard. -/
def plainPrefix (pattern : String) : Option String :=
  if pattern.toList.getLast? = some '%' then
    let p := pattern.toList.dropLast
    if p.any fun c ↦ c == '%' || c == '_' then none else some (.ofList p)
  else none

/-- A `LIKE` test: `'abc%'` is a plain prefix match, which an index can serve. -/
def likeExpr (path pattern : String) (caseInsensitive : Bool) : Expr :=
  match plainPrefix pattern with
  | some p => if caseInsensitive then .like path pattern caseInsensitive else .startsWith path p
  | none => .like path pattern caseInsensitive

/-- The pattern of a `LIKE` condition. -/
def likePattern (params : Params) (path : String) (pattern : Operand) : Except BknError String := do
  match ← pattern.bind params with
  | .str s => return s
  | _ => throw (.invalidQuery (s!"the LIKE pattern for '{path}' must be a string" : String))

mutual

/-- The filter expression of a condition. -/
def bindExpr (params : Params) : Cond → Except BknError Expr
  | .cmp p op v => do return .cmp p op (← v.bind params)
  | .in path values negated => do
    return (Expr.in path (← Operand.bindAll params values)).negate negated
  | .isNull path negated => return if negated then .isNotNull path else .isNull path
  | .between path low high negated => do
    return (Expr.and [.cmp path .ge (← low.bind params), .cmp path .le (← high.bind params)]).negate
      negated
  | .like path pattern caseInsensitive negated => do
    return (likeExpr path (← likePattern params path pattern) caseInsensitive).negate negated
  | .contains p v => do return .contains p (← v.bind params)
  | .and parts => do return .and (← bindExprs params parts)
  | .or parts => do return .or (← bindExprs params parts)
  | .not inner => do return .not (← bindExpr params inner)

/-- The filter expressions of several conditions. -/
def bindExprs (params : Params) : List Cond → Except BknError (List Expr)
  | [] => .ok []
  | c :: parts => do return (← bindExpr params c) :: (← bindExprs params parts)

end
