import Bkndb.Graph.Codec

/-!
# The graph store and its secondary indexes

The physical tables of the graph layer and the two indexes over nodes (`graph/index.rs`): by label,
and by the value of a registered (label, property) pair. Both are maintained by every node write.

The records of the node and edge tables stand for their encodings; the keys, the index tables, and
the `meta` table, which holds the identifier counters, the label-index marker and the registry of
property indexes, are the bytes of the source.

## Keys of the indexes

Each name in a key has its length in front, in two bytes, and a name that does not fit is refused.
The value in a property-index key has no length and no mark of its kind: an `Int` is eight bytes
and a `Str` is its bytes with a zero behind them.

## The marker

A database made by a version without the label index has nodes and no entries for them. The marker
in `meta` says that the index is complete; without it a label is looked up by scanning the nodes.
-/

/-- The physical tables of the graph layer. -/
structure GraphStore where
  /-- `nodes`. -/
  nodes : OrdMap Bytes NodeRecord := ∅
  /-- `edges`. -/
  edges : OrdMap Bytes EdgeRecord := ∅
  /-- `adj_out`. -/
  adjOut : OrdMap Bytes Unit := ∅
  /-- `adj_in`. -/
  adjIn : OrdMap Bytes Unit := ∅
  /-- `node_labels`. -/
  nodeLabels : OrdMap Bytes Unit := ∅
  /-- `node_props`. -/
  nodeProps : OrdMap Bytes Unit := ∅
  /-- `meta`. -/
  metaTable : OrdMap Bytes Bytes := ∅

namespace Graph

/-! ## Index keys -/

/-- The counter of node identifiers. -/
def nextNodeIdKey : Bytes := "next_node_id".utf8

/-- The counter of edge identifiers. -/
def nextEdgeIdKey : Bytes := "next_edge_id".utf8

/-- Set when the label index is complete. -/
def labelIndexMarker : Bytes := "graph:label_index".utf8

/-- What the keys of the property-index registry start with. -/
def propIndexPrefix : Bytes := "graph:prop_index:".utf8

/-- The key bytes of a property value, for the kinds the index holds. -/
def indexValueKey : PropValue → Option Bytes
  | .int i => PropValue.sortableKey (.int i)
  | .str s => PropValue.sortableKey (.str s)
  | _ => none

/-- Append a name behind its length. -/
def pushLenPrefixed (out : Bytes) (s : String) : Except BknError Bytes :=
  if s.utf8.length ≤ 65535 then .ok (out ++ Bytes.lenPrefixed s.utf8)
  else .error (.encoding
    ("name too long for an index key (" ++ toString s.utf8.length ++ " bytes)"))

/-- What the label-index keys of a label start with. -/
def labelPrefix (label : String) : Except BknError Bytes := pushLenPrefixed [] label

/-- The label-index key of a node. -/
def labelKey (label : String) (id : NodeId) : Except BknError Bytes := do
  return (← labelPrefix label) ++ nodeKey id

/-- What the property-index keys of a pair start with. -/
def propPrefix (label property : String) : Except BknError Bytes := do
  pushLenPrefixed (← labelPrefix label) property

/-- The registry key of a pair. -/
def registryKey (label property : String) : Except BknError Bytes := do
  return propIndexPrefix ++ (← propPrefix label property)

/-- The property-index key of a node, when its value is indexable. -/
def propEntry (label property : String) (value : Option PropValue) (id : NodeId) :
    Except BknError (Option Bytes) :=
  match value.bind indexValueKey with
  | none => .ok none
  | some encoded => do
    return some ((← propPrefix label property) ++ encoded ++ nodeKey id)

/-- The keys of a table starting with `p`, ascending. -/
def scanPrefix {V : Type} (table : OrdMap Bytes V) (p : Bytes) : List Bytes :=
  (table.range (.included p) (.stop (Bytes.upperBound p))).map Prod.fst

/-- Delete the keys of a table starting with `p`. -/
def clearPrefix {V : Type} (table : OrdMap Bytes V) (p : Bytes) : OrdMap Bytes V :=
  table.eraseAll (scanPrefix table p)

/-- The node at the end of an index key. -/
def trailingNodeId (key : Bytes) : Except BknError NodeId := do
  .guardOr (8 ≤ key.length) (.encoding "corrupt graph index key")
  decodeNodeId (key.drop (key.length - 8))

/-- The length-prefixed name at the start of a registry key, and what follows it. -/
def readName (rest : Bytes) : Except BknError (String × Bytes) := do
  .guardOr (2 ≤ rest.length) (.encoding "corrupt property index registry key")
  let len := Bytes.ofBe (rest.take 2)
  .guardOr (2 + len ≤ rest.length) (.encoding "corrupt property index registry key")
  let name ← .ofOption (.encoding "invalid utf-8 sequence") (fromUtf8 ((rest.drop 2).take len))
  return (name, rest.drop (2 + len))

end Graph

namespace GraphStore

open Graph

/-! ## Maintenance

Each hook is a sequence of puts and deletes over the index tables alone. An entry that would not
change is not touched. -/

/-- Every registered indexed property of the nodes with a label. -/
def indexedProperties (s : GraphStore) (label : String) : Except BknError (List String) := do
  let p := propIndexPrefix ++ (← labelPrefix label)
  (scanPrefix s.metaTable p).mapM fun k ↦ do
    return (← readName (k.drop p.length)).1

/-- A database that never had a node gets a complete label index from the start. -/
def beforeFirstNodes (s : GraphStore) : GraphStore :=
  if (s.metaTable.get? nextNodeIdKey).isNone ∧ (s.metaTable.get? labelIndexMarker).isNone then
    { s with metaTable := s.metaTable.insert labelIndexMarker [1] }
  else s

/-- Add the index entry of a node, if it has one. -/
def putProp (s : GraphStore) (entry : Option Bytes) : GraphStore :=
  match entry with
  | some k => { s with nodeProps := s.nodeProps.insert k () }
  | none => s

/-- Delete the index entry of a node, if it has one. -/
def deleteProp (s : GraphStore) (entry : Option Bytes) : GraphStore :=
  match entry with
  | some k => { s with nodeProps := s.nodeProps.erase k }
  | none => s

/-- Enter a new node in the indexes. -/
def onInsert (s : GraphStore) (id : NodeId) (record : NodeRecord) : Except BknError GraphStore := do
  let k ← labelKey record.label id
  let s := { s with nodeLabels := s.nodeLabels.insert k () }
  (← s.indexedProperties record.label).foldlM (fun s prop ↦ do
    return s.putProp (← propEntry record.label prop (record.properties.get? prop) id)) s

/-- Remove a node from the indexes. -/
def onDelete (s : GraphStore) (id : NodeId) (record : NodeRecord) : Except BknError GraphStore := do
  let k ← labelKey record.label id
  let s := { s with nodeLabels := s.nodeLabels.erase k }
  (← s.indexedProperties record.label).foldlM (fun s prop ↦ do
    return s.deleteProp (← propEntry record.label prop (record.properties.get? prop) id)) s

/-- Move the index entries of a node whose properties change. -/
def onUpdate (s : GraphStore) (id : NodeId) (old new : NodeRecord) : Except BknError GraphStore := do
  (← s.indexedProperties new.label).foldlM (fun s prop ↦ do
    let before := old.properties.get? prop
    let after := new.properties.get? prop
    if PropValue.eqvOption before after then return s
    let s := s.deleteProp (← propEntry old.label prop before id)
    return s.putProp (← propEntry new.label prop after id)) s

/-! ## Queries -/

/-- Whether the label index is complete. -/
def labelIndexReady (s : GraphStore) : Bool := (s.metaTable.get? labelIndexMarker).isSome

/-- Every node, in identifier order. -/
def scanAllNodes (s : GraphStore) : Except BknError (List (NodeId × NodeRecord)) :=
  (s.nodes.range .unbounded .unbounded).mapM fun e ↦ do
    return (← decodeNodeId e.1, e.2)

/-- The nodes with a label, ascending. -/
def nodesByLabelIn (s : GraphStore) (label : String) : Except BknError (List NodeId) := do
  if s.labelIndexReady then
    (scanPrefix s.nodeLabels (← labelPrefix label)).mapM trailingNodeId
  else
    return ((← s.scanAllNodes).filter fun e ↦ e.2.label == label).map Prod.fst

/-- The nodes with a label whose property equals a value, by scanning the label's nodes. -/
def scanNodesIn (s : GraphStore) (label property : String) (value : PropValue) :
    Except BknError (List NodeId) := do
  return (← s.nodesByLabelIn label).filter fun id ↦
    match s.nodes.get? (nodeKey id) with
    | some record => PropValue.eqvOption (record.properties.get? property) (some value)
    | none => false

/-- The nodes with a label whose property equals a value, ascending: from the property index when
one exists and the value is indexable. -/
def findNodesIn (s : GraphStore) (label property : String) (value : PropValue) :
    Except BknError (List NodeId) := do
  match indexValueKey value with
  | some encoded =>
    if (s.metaTable.get? (← registryKey label property)).isSome then
      (scanPrefix s.nodeProps ((← propPrefix label property) ++ encoded)).mapM trailingNodeId
    else s.scanNodesIn label property value
  | none => s.scanNodesIn label property value

/-- Every registered property index. -/
def propertyIndexesIn (s : GraphStore) : Except BknError (List (String × String)) :=
  (scanPrefix s.metaTable propIndexPrefix).mapM fun k ↦ do
    let (label, rest) ← readName (k.drop propIndexPrefix.length)
    let (property, _) ← readName rest
    return (label, property)

/-! ## Index management -/

/-- The entry of a pair for a node, if the node is there and has one. -/
def backfillEntry (s : GraphStore) (label property : String) (id : NodeId) :
    Except BknError (Option Bytes) :=
  match s.nodes.get? (nodeKey id) with
  | some record => propEntry label property (record.properties.get? property) id
  | none => .ok none

/-- Add the entry of a pair for a node. -/
def backfillNode (label property : String) (s : GraphStore) (id : NodeId) :
    Except BknError GraphStore := do
  return s.putProp (← s.backfillEntry label property id)

/-- Rebuild the entries of one pair from the nodes. -/
def backfillProperty (s : GraphStore) (label property : String) : Except BknError GraphStore := do
  let s := { s with nodeProps := clearPrefix s.nodeProps (← propPrefix label property) }
  (← s.nodesByLabelIn label).foldlM (backfillNode label property) s

/-- Register and fill an index; `false` if it already existed. -/
def createPropertyIndexIn (s : GraphStore) (label property : String) :
    Except BknError (GraphStore × Bool) := do
  let reg ← registryKey label property
  if (s.metaTable.get? reg).isSome then return (s, false)
  let s := { s with metaTable := s.metaTable.insert reg [] }
  return (← s.backfillProperty label property, true)

/-- Remove an index and its entries; `false` if it did not exist. -/
def dropPropertyIndexIn (s : GraphStore) (label property : String) :
    Except BknError (GraphStore × Bool) := do
  let reg ← registryKey label property
  if (s.metaTable.get? reg).isNone then return (s, false)
  let s := { s with metaTable := s.metaTable.erase reg }
  return ({ s with nodeProps := clearPrefix s.nodeProps (← propPrefix label property) }, true)

/-- Rebuild the label index and every property index from the node table, and mark the label index
complete. -/
def rebuildIndexesIn (s : GraphStore) : Except BknError GraphStore := do
  let nodes ← s.scanAllNodes
  let s := { s with nodeLabels := clearPrefix s.nodeLabels [] }
  let s ← nodes.foldlM (fun s e ↦ do
    return { s with nodeLabels := s.nodeLabels.insert (← labelKey e.2.label e.1) () }) s
  let s := { s with metaTable := s.metaTable.insert labelIndexMarker [1] }
  (← s.propertyIndexesIn).foldlM (fun s e ↦ s.backfillProperty e.1 e.2) s

end GraphStore
