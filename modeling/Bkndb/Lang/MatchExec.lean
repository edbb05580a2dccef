import Bkndb.Basic.Dfs
import Bkndb.Basic.Grouping
import Bkndb.Graph.Traversal
import Bkndb.Lang.MatchCond

/-!
# The search for the matches of a pattern

How a `MATCH` query finds its matches (`lang/graph/exec.rs`, and the first half of `execute` in
`lang/graph/project.rs`): it chooses the node of the pattern that has the fewest candidates, and
from each candidate walks along the relationships to the right of it and then along those to the
left, depth first, never using an edge twice. A complete walk binds the variables, and is kept if
they are consistent and the filter passes.

## One execution

`prepare` evaluates the inline properties once and keeps their values (`Exec`). The anchor is then
chosen by score, and each of its candidates starts a search of its own, with the same list of found
bindings.

## Termination

The source has no bound on the search. Each trail uses an edge once, so the frames of a candidate
are finitely many, but their number may be exponential in the number of edges; the model takes the
number of iterations as an argument, and results say that enough of them suffice.
-/

open Graph

/-- The types a relationship admits; none of them is any type. -/
def RelPattern.typesOf (rel : RelPattern) : Option (List String) :=
  if rel.types.isEmpty then none else some rel.types

/-- What a variable is bound to. -/
inductive VarKind where
  | node
  | rel
  | path
  deriving DecidableEq, Repr

/-- The kinds of the variables of a pattern. Only nodes may share a variable. -/
def MatchQuery.varKinds (q : MatchQuery) : Except BknError (OrdMap String VarKind) :=
  let vars : OrdMap String VarKind := q.nodes.foldl (fun vars n ↦
    match n.var with
    | some v => vars.insert v .node
    | none => vars) ∅
  q.rels.foldlM (fun vars r ↦
    match r.var with
    | some v => do
      .guardOr (vars.get? v = none) (.invalidQuery (s!"variable '{v}' is bound twice" : String))
      return vars.insert v (if r.hops.isSome then .path else .rel)
    | none => return vars) vars

namespace Match.Exec

variable (ex : Exec)

/-- An element of a vector. -/
def nth {α : Type} (l : List α) (i : ℕ) : Except BknError α :=
  .ofOption (.panic "index out of bounds") l[i]?

/-- The values of inline properties. -/
def bindProps (params : Params) (props : List (String × Operand)) :
    Except BknError (List (String × PropValue)) :=
  props.mapM fun (k, v) ↦ do return (k, ← v.bind params)

/-- The execution of a query. -/
def prepare (store : GraphStore) (q : MatchQuery) (params : Params) : Except BknError Exec := do
  let nodeProps ← q.nodes.mapM fun n ↦ bindProps params n.props
  let relProps ← q.rels.mapM fun r ↦ bindProps params r.props
  return { store, q, params, nodeProps, relProps }

/-! ## Nodes and relationships -/

/-- The inline properties of a pattern are among those of a record. -/
def propsMatch (props : List (String × PropValue)) (properties : Properties) : Bool :=
  props.all fun (k, v) ↦ (properties.get? k).any fun x ↦ x.compareValues v == some .eq

/-- Whether a node matches a node pattern. -/
def nodeMatches (i : ℕ) (id : NodeId) : Except BknError Bool := do
  let label := (← nth ex.q.nodes i).label
  let props ← nth ex.nodeProps i
  match ex.store.getNodeIn id with
  | none => return false
  | some rec => return label.all (rec.label == ·) && propsMatch props rec.properties

/-- Whether an edge has the inline properties of a relationship pattern. -/
def edgeMatches (i : ℕ) (id : EdgeId) : Except BknError Bool := do
  let props ← nth ex.relProps i
  if props.isEmpty then return true
  match ex.store.getEdgeIn id with
  | none => return false
  | some rec => return propsMatch props rec.properties

/-- The lists of a node that are read, travelling left to right through the pattern or back. -/
def way : RelDirection → Bool → Direction
  | .right, true | .left, false => .out
  | .left, true | .right, false => .in
  | .either, _ => .both

/-- One hop along a relationship. A self-loop shows up in both lists of an undirected step. -/
def step (i : ℕ) (node : NodeId) (forward : Bool) : Except BknError (List (NodeId × EdgeId)) := do
  let rel ← nth ex.q.rels i
  let hits ← ex.store.neighborsForTraversal node (way rel.direction forward) rel.typesOf
  match way rel.direction forward with
  | .both => return Grouping.keepFirst Prod.snd [] hits
  | _ => return hits

/-! ## Expansion

A relationship of variable length is followed breadth first, by whole layers, from the node the
frame has reached. Paths that are too short to be a match are extended but not kept. -/

/-- The paths one hop longer than those of the frontier. -/
def expandFrontier (i : ℕ) (forward : Bool) (used : List EdgeId)
    (frontier : List (NodeId × List EdgeId)) : Except BknError (List (NodeId × List EdgeId)) :=
  frontier.foldlM (fun next (node, path) ↦ do
    (← ex.step i node forward).foldlM (fun next (n, e) ↦ do
      if used.contains e || path.contains e then return next
      if !(← ex.edgeMatches i e) then return next
      return next ++ [(n, path ++ [e])]) next) []

/-- The paths at the depths from `depth` on, while hops are left and there is a path. -/
def expandLoop (i : ℕ) (forward : Bool) (used : List EdgeId) (min : ℕ) :
    ℕ → ℕ → List (NodeId × List EdgeId) → List (NodeId × List EdgeId) →
      Except BknError (List (NodeId × List EdgeId))
  | 0, _, _, out => .ok out
  | hops + 1, depth, frontier, out => do
    let next ← ex.expandFrontier i forward used frontier
    let out := if min ≤ depth then out ++ next else out
    if next.isEmpty then return out
    expandLoop i forward used min hops (depth + 1) next out

/-- Where a relationship leads from a node, with the edges on the way, none of them used before. -/
def expand (i : ℕ) (start : NodeId) (forward : Bool) (used : List EdgeId) :
    Except BknError (List (NodeId × List EdgeId)) := do
  let (min, max) := (← nth ex.q.rels i).hops.getD (1, 1)
  let out := if min = 0 then [(start, [])] else []
  ex.expandLoop i forward used min max 1 [(start, [])] out

/-! ## The start node

The score of a node is what its candidates come from, an identifier, an index, a label or nothing.
Among equals the first in the pattern is taken. -/

/-- Candidates for a node pattern as the starting point: the node an identifier pins, those an index
lists, those with the label, or all of them. -/
def anchorCandidates (i : ℕ) (pinned : Option PropValue) (indexed : Option (String × PropValue)) :
    Except BknError (List NodeId) :=
  match pinned with
  | some (.int id) => .ok (if 0 ≤ id then [⟨id.toUInt64⟩] else [])
  | some _ => .ok []
  | none => do
    match (← nth ex.q.nodes i).label, indexed with
    | some l, some (p, v) => ex.store.findNodesIn l p v
    | some l, none => ex.store.nodesByLabelIn l
    | none, _ => return (← ex.store.scanAllNodes).map Prod.fst

/-- The expression that a comparison for equality compares with a value. -/
def equality : GExpr → GExpr → Option (GExpr × Operand)
  | .id x, .value v | .value v, .id x => some (.id x, v)
  | .prop x path, .value v | .value v, .prop x path => some (.prop x path, v)
  | _, _ => none

theorem sum_map_sizeOf_le (parts : List GCond) : (parts.map sizeOf).sum ≤ sizeOf parts := by
  induction parts with
  | nil => simp
  | cons c parts ih => simpa [Nat.add_assoc] using Nat.le_add_left_of_le (by omega)

/-- The equalities among conditions on a stack and the parts of their conjunctions, the last part of
a conjunction first. -/
def equalitiesOf (params : Params) : List GCond → Except BknError (List (GExpr × PropValue))
  | [] => .ok []
  | .and parts :: stack => equalitiesOf params (parts.reverse ++ stack)
  | .cmp a .eq b :: stack =>
    match equality a b with
    | some (e, v) => do
      let v ← v.bind params
      return (e, v) :: (← equalitiesOf params stack)
    | none => equalitiesOf params stack
  | _ :: stack => equalitiesOf params stack
termination_by stack => (stack.map sizeOf).sum
decreasing_by
  · have := sum_map_sizeOf_le parts
    simp [List.sum_reverse]
    omega
  · simp
  · simp
  · rename_i c
    have : 0 < sizeOf c := by cases c <;> simp
    simpa

/-- `id(var) = value` and `var.prop = value` at the top level of the filter. -/
def topLevelEqualities : Except BknError (List (GExpr × PropValue)) :=
  equalitiesOf ex.params ex.q.filter.toList

/-- The value that pins a node. -/
def pinnedBy (equalities : List (GExpr × PropValue)) (n : NodePattern) : Option PropValue :=
  n.var.bind fun v ↦ equalities.findSome? fun
    | (.id x, val) => if x = v then some val else none
    | _ => none

/-- An equality on a property that has an index: inline ones first. -/
def indexedBy (equalities : List (GExpr × PropValue)) (indexes : List (String × String))
    (n : NodePattern) (props : List (String × PropValue)) : Option (String × PropValue) :=
  n.label.bind fun l ↦
    let inline := n.props.zip props |>.map fun ((k, _), (_, v)) ↦ (k, v)
    let fromWhere := equalities.filterMap fun
      | (.prop x [p], val) => if n.var = some x then some (p, val) else none
      | _ => none
    (inline ++ fromWhere).find? fun (p, _) ↦ indexes.contains (l, p)

/-- The start: a position in the pattern, and what its candidates come from. -/
structure Anchor where
  score : ℕ := 0
  anchor : ℕ := 0
  pinned : Option PropValue := none
  indexed : Option (String × PropValue) := none

/-- How good a node is to start from. -/
def scoreOf (pinned : Option PropValue) (indexed : Option (String × PropValue)) (n : NodePattern) :
    ℕ :=
  if pinned.isSome then 4 else if indexed.isSome then 3 else if n.label.isSome then 2 else 1

/-- The first of the nodes that are best to start from. -/
def chooseAnchor : Except BknError Anchor := do
  let equalities ← ex.topLevelEqualities
  let indexes ← ex.store.propertyIndexesIn
  ex.q.nodes.zipIdx.foldlM (fun best (n, i) ↦ do
    let props ← nth ex.nodeProps i
    let pinned := pinnedBy equalities n
    let indexed := indexedBy equalities indexes n props
    let score := scoreOf pinned indexed n
    return if best.score < score then ⟨score, i, pinned, indexed⟩ else best) {}

/-! ## The search

Relationships to the right of the anchor come first, then those to its left, travelled back. A
frame is pushed for each way to go on, in reverse, so that the stack is worked off in adjacency
order. -/

/-- A partial match: how many steps it has taken, the nodes by their position in the pattern, the
edges used, and the edges of each relationship in the order of the steps. -/
structure Frame where
  depth : ℕ
  positions : List (Option NodeId)
  used : List EdgeId
  rels : List (ℕ × List EdgeId)

/-- The positions that a step leads from and to. -/
def stepEnds (i : ℕ) (forward : Bool) : ℕ × ℕ := if forward then (i, i + 1) else (i + 1, i)

/-- The frame after one more step, to a node along some edges. -/
def Frame.advance (f : Frame) (i : ℕ) (forward : Bool) (x : NodeId × List EdgeId) : Frame where
  depth := f.depth + 1
  positions := f.positions.set (stepEnds i forward).2 (some x.1)
  used := f.used ++ x.2
  rels := f.rels ++ [(i, x.2)]

/-- The steps from the anchor: to the right, then to the left. -/
def stepsFrom (anchor : ℕ) : List (ℕ × Bool) :=
  (List.range' anchor (ex.q.rels.length - anchor)).map (fun i ↦ (i, true)) ++
    (List.range anchor).reverse.map fun i ↦ (i, false)

/-- The node at a position. -/
def positionOf (message : String) (positions : List (Option NodeId)) (i : ℕ) :
    Except BknError NodeId := do
  .ofOption (.panic message) (← nth positions i)

/-- Bind the variable of one node, unless it is bound to another one. -/
def bindNode (positions : List (Option NodeId)) (s : Binding × Bool) (x : NodePattern × ℕ) :
    Except BknError (Binding × Bool) :=
  match x.1.var with
  | none => return s
  | some v => do
    let id ← positionOf "all positions bound" positions x.2
    match s.1.get? v with
    | some (.node prev) => return if prev ≠ id then (s.1, false) else (s.1.insert v (.node id), s.2)
    | _ => return (s.1.insert v (.node id), s.2)

/-- Bind the variables of the nodes. The flag tells that no variable is bound to two nodes. -/
def bindNodes (positions : List (Option NodeId)) : Except BknError (Binding × Bool) :=
  ex.q.nodes.zipIdx.foldlM (bindNode positions) (∅, true)

/-- Bind the variable of one relationship. -/
def bindRel (b : Binding) (x : ℕ × List EdgeId) : Except BknError Binding := do
  let rel ← nth ex.q.rels x.1
  match rel.var with
  | none => return b
  | some v =>
    if rel.hops.isSome then return b.insert v (.path x.2)
    return b.insert v (.rel (← nth x.2 0))

/-- Bind the variables of the relationships. -/
def bindRels (rels : List (ℕ × List EdgeId)) (b : Binding) : Except BknError Binding :=
  rels.foldlM ex.bindRel b

variable [Unicode]

/-- Whether the filter passes, if there is one. -/
def passes (b : Binding) : Except BknError Bool :=
  match ex.q.filter with
  | none => .ok true
  | some f => ex.test b f

/-- What becomes of the frame on top of the stack: a complete one may be a match, and the others are
replaced by those one step further, pushed in reverse so that the stack visits them in adjacency
order. -/
def visit (steps : List (ℕ × Bool)) (limit : Option ℕ) (found : List Binding) (f : Frame) :
    Except BknError (Dfs.Outcome Frame (List Binding)) :=
  if f.depth = steps.length then do
    let (b, consistent) ← ex.bindNodes f.positions
    if !consistent then return .next found
    let b ← ex.bindRels f.rels b
    if !(← ex.passes b) then return .next found
    let found := found ++ [b]
    return if limit.any (· ≤ found.length) then .stop found else .next found
  else do
    let (i, forward) ← nth steps f.depth
    let origin ← positionOf "steps extend from a bound node" f.positions (stepEnds i forward).1
    let expansions ← ex.expand i origin forward f.used
    let frames ← expansions.reverse.foldlM (fun frames (target, edges) ↦ do
      if !(← ex.nodeMatches (stepEnds i forward).2 target) then return frames
      return frames ++ [f.advance i forward (target, edges)]) []
    return .push frames

/-- The frame of a candidate. -/
def startFrame (anchor : ℕ) (start : NodeId) : Frame :=
  ⟨0, (List.replicate ex.q.nodes.length none).set anchor (some start), [], []⟩

/-- The matches that start from the candidates, with a bound on the iterations for each of them. The
search ends early when it has as many matches as are asked for. -/
def search (fuel anchor : ℕ) (limit : Option ℕ) (candidates : List NodeId) :
    Except BknError (List Binding × Bool) :=
  Dfs.forUntil (fun found start ↦ do
    if !(← ex.nodeMatches anchor start) then return (found, false)
    Dfs.loop (ex.visit (ex.stepsFrom anchor) limit) fuel [ex.startFrame anchor start] found)
    candidates []

/-- The matches of the pattern, all of them or as many as are asked for. -/
def findMatches (fuel : ℕ) (limit : Option ℕ) : Except BknError (List Binding) := do
  let a ← ex.chooseAnchor
  let candidates ← ex.anchorCandidates a.anchor a.pinned a.indexed
  return (← ex.search fuel a.anchor limit candidates).1

end Match.Exec
