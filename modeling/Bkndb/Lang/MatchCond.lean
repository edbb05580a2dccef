import Bkndb.Graph.Ops
import Bkndb.Lang.Cond

/-!
# Conditions of graph queries

The patterns, expressions and conditions of a `MATCH` query (`lang/graph/mod.rs`), and how an
expression is evaluated and a condition is tested once the variables are bound (`lang/graph/exec.rs`).
A query reads one snapshot, so the records it keeps are those of the store.

## Null

What is missing is null, and a comparison with null is neither true nor false in SQL. Here it is
tested: `=` holds of two nulls, `<>` unless both sides are null, and other comparisons with a
missing value do not hold.

## Errors

Evaluation fails for a parameter that is not given, and `IN` for a right side that is not a list.
`AND` and `OR` stop at the part that decides, so what comes after it cannot fail.
-/

/-! ## Queries -/

/-- A node of a pattern. -/
structure NodePattern where
  var : Option String
  label : Option String
  props : List (String × Operand)

/-- Which way a relationship points. -/
inductive RelDirection where
  /-- `-[]->`: from the left node to the right one. -/
  | right
  /-- `<-[]-`. -/
  | left
  /-- `-[]-`: either way. -/
  | either
  deriving DecidableEq, Repr

/-- A relationship of a pattern. -/
structure RelPattern where
  var : Option String
  /-- Any of these types; none means any type. -/
  types : List String
  direction : RelDirection
  props : List (String × Operand)
  /-- The bounds of a variable-length relationship. -/
  hops : Option (ℕ × ℕ)

/-- An expression over the variables of a pattern. -/
inductive GExpr where
  | var (v : String)
  | prop (v : String) (path : List String)
  | id (v : String)
  | label (v : String)
  | type (v : String)
  | value (op : Operand)

/-- A condition over the variables of a pattern. -/
inductive GCond where
  | cmp (a : GExpr) (op : CmpOp) (rhs : GExpr)
  | in (a list : GExpr) (negated : Bool)
  | isNull (a : GExpr) (negated : Bool)
  | like (expr pattern : GExpr) (caseInsensitive negated : Bool)
  | contains (a n : GExpr)
  | startsWith (a p : GExpr)
  | endsWith (a p : GExpr)
  | hasLabel (v label : String)
  | and (parts : List GCond)
  | or (parts : List GCond)
  | not (inner : GCond)

/-- The pattern and the filter of a query. -/
structure MatchQuery where
  nodes : List NodePattern
  rels : List RelPattern
  filter : Option GCond := none

namespace Match

/-- What a variable is bound to. -/
inductive Bound where
  | node (id : NodeId)
  | rel (id : EdgeId)
  | path (edges : List EdgeId)
  deriving DecidableEq

/-- The values of the variables. -/
abbrev Binding := OrdMap String Bound

/-- What an execution works with: the store, the query, the parameters, and the inline properties
of its nodes and relationships. -/
structure Exec where
  store : GraphStore
  q : MatchQuery
  params : Params := {}
  nodeProps : List (List (String × PropValue)) := []
  relProps : List (List (String × PropValue)) := []

/-! ## Expressions -/

def nodeValue (id : NodeId) (rec : NodeRecord) : PropValue :=
  let m : Properties := ((OrdMap.insert ∅ "id" (.int id.id.toInt64)).insert "label"
    (.str rec.label)).insert "properties" (.map rec.properties.entries)
  .map m.entries

def edgeValue (id : EdgeId) (rec : EdgeRecord) : PropValue :=
  let m : Properties := ((((OrdMap.insert ∅ "id" (.int id.id.toInt64)).insert "type"
    (.str rec.edgeType)).insert "from" (.int rec.src.id.toInt64)).insert "to"
    (.int rec.dst.id.toInt64)).insert "properties" (.map rec.properties.entries)
  .map m.entries

namespace Exec

variable (ex : Exec)

/-- The properties of a bound node or edge. -/
def propsOf (b : Binding) (v : String) : Option Properties :=
  match b.get? v with
  | some (.node n) => (ex.store.getNodeIn n).map (·.properties)
  | some (.rel r) => (ex.store.getEdgeIn r).map (·.properties)
  | _ => none

/-- The value of an expression. What is missing is null. -/
def eval (b : Binding) : GExpr → Except BknError PropValue
  | .value op => op.bind ex.params
  | .id v => .ok <|
    match b.get? v with
    | some (.node n) => .int n.id.toInt64
    | some (.rel r) => .int r.id.toInt64
    | _ => .null
  | .label v => .ok <|
    match b.get? v with
    | some (.node n) => ((ex.store.getNodeIn n).map fun r ↦ .str r.label).getD .null
    | _ => .null
  | .type v => .ok <|
    match b.get? v with
    | some (.rel r) => ((ex.store.getEdgeIn r).map fun r ↦ .str r.edgeType).getD .null
    | _ => .null
  | .prop v path =>
    match ex.propsOf b v, path with
    | none, _ => .ok .null
    | some _, [] => .error (.panic "index out of bounds: the len is 0 but the index is 0")
    | some props, k :: rest => .ok (((props.get? k).bind (·.getPath rest)).getD .null)
  | .var v => .ok <|
    match b.get? v with
    | some (.node n) => ((ex.store.getNodeIn n).map (nodeValue n)).getD .null
    | some (.rel r) => ((ex.store.getEdgeIn r).map (edgeValue r)).getD .null
    | some (.path edges) => .list (edges.map fun e ↦
      ((ex.store.getEdgeIn e).map (edgeValue e)).getD .null)
    | none => .null

/-! ## Conditions -/

/-- A comparison. `= null` and `<> null` test nullness. -/
def testCmp (op : CmpOp) (x y : PropValue) : Bool :=
  if x.isNull || y.isNull then
    match op with
    | .eq => x.isNull && y.isNull
    | .ne => !(x.isNull && y.isNull)
    | _ => false
  else (x.compareValues y).any op.holds

def testContains : PropValue → PropValue → Bool
  | .list items, n => items.any fun i ↦ i.compareValues n == some .eq
  | .str s, .str n => decide (n.utf8 <:+: s.utf8)
  | .map m, .str k => m.any (·.1 == k)
  | _, _ => false

/-- Two strings, or nothing. -/
def strPair : PropValue → PropValue → Option (String × String)
  | .str a, .str p => some (a, p)
  | _, _ => none

variable [Unicode]

mutual

/-- Whether a condition holds. -/
def test (b : Binding) : GCond → Except BknError Bool
  | .cmp a op rhs => do
    let x ← ex.eval b a
    let y ← ex.eval b rhs
    return testCmp op x y
  | .in a list negated => do
    let x ← ex.eval b a
    match ← ex.eval b list with
    | .list items =>
      let found := !x.isNull && items.any fun i ↦ x.compareValues i == some .eq
      return found != negated
    | _ => throw (.invalidQuery ("IN needs a list on its right" : String))
  | .isNull a negated => do
    let x ← ex.eval b a
    return x.isNull != negated
  | .like expr pattern caseInsensitive negated => do
    let x ← ex.eval b expr
    let p ← ex.eval b pattern
    match strPair x p with
    | some (s, p) => return likeMatches s p caseInsensitive != negated
    | none => return false
  | .contains a n => do
    let x ← ex.eval b a
    let n ← ex.eval b n
    return testContains x n
  | .startsWith a p => do
    let x ← ex.eval b a
    let p ← ex.eval b p
    return (strPair x p).any fun (s, p) ↦ p.utf8.isPrefixOf s.utf8
  | .endsWith a p => do
    let x ← ex.eval b a
    let p ← ex.eval b p
    return (strPair x p).any fun (s, p) ↦ p.utf8.isSuffixOf s.utf8
  | .hasLabel v label => .ok <|
    match b.get? v with
    | some (.node n) => (ex.store.getNodeIn n).any (·.label == label)
    | _ => false
  | .and parts => testAll b parts
  | .or parts => testAny b parts
  | .not inner => do return !(← test b inner)

/-- Whether every condition holds, up to the first that does not. -/
def testAll (b : Binding) : List GCond → Except BknError Bool
  | [] => .ok true
  | c :: parts => do if !(← test b c) then return false else testAll b parts

/-- Whether some condition holds, up to the first that does. -/
def testAny (b : Binding) : List GCond → Except BknError Bool
  | [] => .ok false
  | c :: parts => do if ← test b c then return true else testAny b parts

end

end Exec

end Match
