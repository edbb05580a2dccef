import Bkndb.Graph.Index

/-!
# Graph operations

The operations over an open write transaction (`graph/db/mod.rs`, `graph/db/ops.rs`). An operation
that returns an error drops its transaction, so an operation is a function to `Except`; the state it
would have left behind is not needed.

## Errors

* `NotFound` for a node or an edge that is asked to be there.
* A panic for a counter at its end, and for a row that does not decode to its fields.
* `Encoding` for a name that does not fit an index key.

Reading the neighbours of a node decodes every row between two keys; one row that cannot be decoded
fails the whole read.
-/

namespace GraphStore

open Graph

/-! ## Identifiers -/

/-- The stored counter, one if there is none. -/
def counter (s : GraphStore) (counterKey : Bytes) : Except BknError ℕ :=
  match s.metaTable.get? counterKey with
  | some b =>
    if b.length = 8 then .ok (Bytes.ofBe b) else .error (.encoding "corrupt id counter")
  | none => .ok 1

/-- Advance a counter by `count` and return its old value. -/
def reserveIds (s : GraphStore) (counterKey : Bytes) (count : ℕ) :
    Except BknError (GraphStore × ℕ) := do
  if count = 0 then return (s, 1)
  let current ← s.counter counterKey
  let next ← checkedAdd current count
  return ({ s with metaTable := s.metaTable.insert counterKey (Bytes.be 8 next) }, current)

/-- One identifier. -/
def nextId (s : GraphStore) (counterKey : Bytes) : Except BknError (GraphStore × ℕ) :=
  s.reserveIds counterKey 1

/-! ## Creation -/

/-- Store a node and enter it in the indexes. -/
def putNode (s : GraphStore) (id : NodeId) (record : NodeRecord) : Except BknError GraphStore :=
  onInsert { s with nodes := s.nodes.insert (nodeKey id) record } id record

/-- Create one node. -/
def createNodeIn (s : GraphStore) (label : String) (properties : Properties) :
    Except BknError (GraphStore × NodeId) := do
  let s := s.beforeFirstNodes
  let (s, n) ← s.nextId nextNodeIdKey
  let id : NodeId := ⟨UInt64.ofNat n⟩
  return (← s.putNode id ⟨label, properties⟩, id)

/-- The record of a node. -/
def getNodeIn (s : GraphStore) (id : NodeId) : Option NodeRecord := s.nodes.get? (nodeKey id)

/-- The record of an edge. -/
def getEdgeIn (s : GraphStore) (id : EdgeId) : Option EdgeRecord := s.edges.get? (edgeKey id)

/-- Store an edge with its two adjacency rows. -/
def putEdge (s : GraphStore) (id : EdgeId) (record : EdgeRecord) : GraphStore :=
  { s with
    edges := s.edges.insert (edgeKey id) record
    adjOut := s.adjOut.insert (adjOutKey record.src record.edgeType record.dst id) ()
    adjIn := s.adjIn.insert (adjInKey record.dst record.edgeType record.src id) () }

/-- Create one edge between existing nodes. -/
def createEdgeIn (s : GraphStore) (src : NodeId) (edgeType : String) (dst : NodeId)
    (properties : Properties) : Except BknError (GraphStore × EdgeId) := do
  .guardOr ((s.nodes.get? (nodeKey src)).isSome) .notFound
  .guardOr ((s.nodes.get? (nodeKey dst)).isSome) .notFound
  let (s, n) ← s.nextId nextEdgeIdKey
  let id : EdgeId := ⟨UInt64.ofNat n⟩
  return (s.putEdge id ⟨src, dst, edgeType, properties⟩, id)

/-- Create many nodes under consecutive identifiers. -/
def createNodesBulkIn (s : GraphStore) (items : List (String × Properties)) :
    Except BknError (GraphStore × List NodeId) := do
  if items.isEmpty then return (s, [])
  let s := s.beforeFirstNodes
  let (s, start) ← s.reserveIds nextNodeIdKey items.length
  items.zipIdx.foldlM (fun (s, ids) ((label, properties), i) ↦ do
    let id : NodeId := ⟨UInt64.ofNat (start + i)⟩
    return (← s.putNode id ⟨label, properties⟩, ids ++ [id])) (s, [])

/-- Check that a node exists, unless it was checked before. -/
def verifyNode (s : GraphStore) (verified : List NodeId) (id : NodeId) :
    Except BknError (List NodeId) :=
  if id ∈ verified then .ok verified
  else if (s.nodes.get? (nodeKey id)).isSome then .ok (id :: verified)
  else .error .notFound

/-- Create many edges under consecutive identifiers. -/
def createEdgesBulkIn (s : GraphStore) (items : List (NodeId × String × NodeId × Properties)) :
    Except BknError (GraphStore × List EdgeId) := do
  if items.isEmpty then return (s, [])
  let (s, start) ← s.reserveIds nextEdgeIdKey items.length
  let (s, ids, _) ← items.zipIdx.foldlM
    (fun (s, ids, verified) ((src, edgeType, dst, properties), i) ↦ do
      let verified ← s.verifyNode verified src
      let verified ← s.verifyNode verified dst
      let id : EdgeId := ⟨UInt64.ofNat (start + i)⟩
      return (s.putEdge id ⟨src, dst, edgeType, properties⟩, ids ++ [id], verified)) (s, [], [])
  return (s, ids)

/-! ## Deletion and update -/

/-- The rows of an adjacency table starting with a node. -/
def adjRows (table : OrdMap Bytes Unit) (node : NodeId) : List (Bytes × Unit) :=
  table.range (.included (nodeKey node)) (.stop (nextNodePrefix node))

/-- Delete the edge behind an outgoing row of a node. -/
def deleteOutRow (id : NodeId) (s : GraphStore) (row : Bytes × Unit) :
    Except BknError GraphStore := do
  let (_, edgeType, dst, edge) ← decodeAdjKey row.1
  return { s with
    adjOut := s.adjOut.erase row.1
    adjIn := s.adjIn.erase (adjInKey dst edgeType id edge)
    edges := s.edges.erase (edgeKey edge) }

/-- Delete the edge behind an incoming row of a node. -/
def deleteInRow (id : NodeId) (s : GraphStore) (row : Bytes × Unit) :
    Except BknError GraphStore := do
  let (_, edgeType, src, edge) ← decodeAdjKey row.1
  return { s with
    adjIn := s.adjIn.erase row.1
    adjOut := s.adjOut.erase (adjOutKey src edgeType id edge)
    edges := s.edges.erase (edgeKey edge) }

/-- Remove a node from the indexes, if it exists. -/
def dropEntries (s : GraphStore) (id : NodeId) : Except BknError GraphStore :=
  match s.nodes.get? (nodeKey id) with
  | some record => s.onDelete id record
  | none => .ok s

/-- Delete a node with every edge touching it. The incoming scan runs after the outgoing deletions;
a deletion of a missing key is a no-op. -/
def deleteNodeIn (s : GraphStore) (id : NodeId) : Except BknError GraphStore := do
  let s ← (adjRows s.adjOut id).foldlM (deleteOutRow id) s
  let s ← (adjRows s.adjIn id).foldlM (deleteInRow id) s
  let s ← s.dropEntries id
  return { s with nodes := s.nodes.erase (nodeKey id) }

/-- Replace a node's properties by `mutate` of them, keeping its label. -/
def updateNodePropertiesIn (s : GraphStore) (id : NodeId) (mutate : Properties → Properties) :
    Except BknError GraphStore := do
  let old ← .ofOption .notFound (s.nodes.get? (nodeKey id))
  let record := { old with properties := mutate old.properties }
  let s ← s.onUpdate id old record
  return { s with nodes := s.nodes.insert (nodeKey id) record }

/-- Delete one edge with both of its adjacency rows; `false` if there is no such edge. -/
def deleteEdgeIn (s : GraphStore) (edge : EdgeId) : GraphStore × Bool :=
  match s.edges.get? (edgeKey edge) with
  | none => (s, false)
  | some record =>
    ({ s with
      adjOut := s.adjOut.erase (adjOutKey record.src record.edgeType record.dst edge)
      adjIn := s.adjIn.erase (adjInKey record.dst record.edgeType record.src edge)
      edges := s.edges.erase (edgeKey edge) }, true)

/-- Replace an edge's properties by `mutate` of them. -/
def updateEdgePropertiesIn (s : GraphStore) (edge : EdgeId) (mutate : Properties → Properties) :
    Except BknError GraphStore := do
  let record ← .ofOption .notFound (s.edges.get? (edgeKey edge))
  return { s with
    edges := s.edges.insert (edgeKey edge)
      { record with properties := mutate record.properties } }

/-! ## Neighbours -/

/-- The other end and the edge of every row of a node and a type. -/
def neighborsIn (table : OrdMap Bytes Unit) (node : NodeId) (edgeType : String) :
    Except BknError (List (NodeId × EdgeId)) :=
  (table.range (.included (adjTypePrefix node edgeType))
    (.included (adjTypeUpperBound node edgeType))).mapM fun (k, _) ↦ do
      let (_, _, second, edge) ← decodeAdjKey k
      return (second, edge)

/-- The outgoing edges of a type. -/
def neighborsOutIn (s : GraphStore) (node : NodeId) (edgeType : String) :
    Except BknError (List (NodeId × EdgeId)) :=
  neighborsIn s.adjOut node edgeType

/-- The incoming edges of a type. -/
def neighborsInIn (s : GraphStore) (node : NodeId) (edgeType : String) :
    Except BknError (List (NodeId × EdgeId)) :=
  neighborsIn s.adjIn node edgeType

/-- The edges of any type in one of the two adjacency tables. -/
def neighborsAnyIn (table : OrdMap Bytes Unit) (node : NodeId) :
    Except BknError (List (String × NodeId × EdgeId)) :=
  (adjRows table node).mapM fun (k, _) ↦ do
    let (_, edgeType, second, edge) ← decodeAdjKey k
    return (edgeType, second, edge)

/-! ## Cascading deletion

The loop that collects the nodes has no bound in the source. It takes each node at most once, and
every node but the root is the end of a row, so the number of the rows bounds the iterations. -/

/-- Queue the children that were not visited before. -/
def enqueue (children : List NodeId) (visited queue : List NodeId) : List NodeId × List NodeId :=
  children.foldl (fun (visited, queue) child ↦
    if child ∈ visited then (visited, queue) else (child :: visited, queue ++ [child]))
    (visited, queue)

/-- The breadth-first loop collecting the nodes to delete, with a bound on its iterations. -/
def cascadeLoop (s : GraphStore) (edgeType : String) :
    ℕ → List NodeId → List NodeId → List NodeId → Except BknError (List NodeId)
  | 0, _, _, toDelete => .ok toDelete
  | _ + 1, [], _, toDelete => .ok toDelete
  | fuel + 1, current :: queue, visited, toDelete => do
    let neighbors ← s.neighborsOutIn current edgeType
    let (visited, queue) := enqueue (neighbors.map Prod.fst) visited queue
    s.cascadeLoop edgeType fuel queue visited (toDelete ++ [current])

/-- Delete the nodes reachable from `root` along one edge type. Every iteration but the first takes
a node that some outgoing row leads to, which bounds the loop. -/
def cascadeDeleteIn (s : GraphStore) (root : NodeId) (containmentEdgeType : String) :
    Except BknError (GraphStore × List NodeId) := do
  .guardOr ((s.getNodeIn root).isSome) .notFound
  let toDelete ← s.cascadeLoop containmentEdgeType (s.adjOut.size + 1) [root] [root] []
  return (← toDelete.reverse.foldlM deleteNodeIn s, toDelete)

end GraphStore
