import Bkndb.Core.Error
import Mathlib.Data.List.Sort
import Mathlib.Data.Prod.Lex

/-!
# The HNSW graph

Insertion into, removal from, and layered best-first search of the graph behind a vector index
(`relational/ann`). Distances are an arbitrary function into a linear order. The nodes, links and
primary-key tables are kept typed: `decodeNode_encodeNode` says when a stored node reads back, and
since a node never changes once written the per-operation node cache is not modelled.

## What is arbitrary

Distances and levels come from floating-point arithmetic and are parameters (`Geometry`). Nothing
is proved about how good the answers of a search are; what is proved is that it ends, that the
graph stays well formed, and that what is found is in it. These hold for every geometry.

## Termination

A search expands candidates until none can improve on what was found. Each node is seen once, so
the nodes not yet seen and the candidates left bound the loop; no fuel is needed.
-/

namespace Ann

/-! ## Storage -/

/-- Distance or similarity of two vectors. -/
inductive VectorMetric where
  | cosine
  | dot
  | euclidean
  deriving DecidableEq, Repr

/-- The highest level a node can have. -/
def maxLevel : ℕ := 32

/-- The stored parameters and entry point of an index. -/
structure AnnMeta where
  metric : VectorMetric
  m : ℕ
  efConstruction : ℕ
  /-- `0` while no vector has been indexed. -/
  dim : ℕ
  entry : Option ℕ
  maxLevel : ℕ
  nextId : ℕ
  count : ℕ
  deriving DecidableEq

/-- An indexed vector. -/
structure Node where
  level : ℕ
  pk : Bytes
  vector : List F32
  deriving DecidableEq

/-- The four bytes of an `f32`, little-endian. -/
def leBytes (x : F32) : Bytes := (Bytes.be 4 x.bits.toNat).reverse

/-- The `f32` of four bytes, little-endian. -/
def ofLeBytes (b : Bytes) : F32 := ⟨.ofNat _ (Bytes.ofBe b.reverse)⟩

/-- A record: level, length of the primary key as a `u32`, the key, the components. -/
def encodeNode (n : Node) : Bytes :=
  .ofNat n.level :: (Bytes.be 4 n.pk.length).reverse ++ n.pk ++ n.vector.flatMap leBytes

/-- Split into pieces of four bytes, dropping a shorter last one. -/
def chunks4 : Bytes → List Bytes
  | a :: b :: c :: d :: l => [a, b, c, d] :: chunks4 l
  | _ => []

/-- Read a record back. -/
def decodeNode (bytes : Bytes) : Except BknError Node := do
  let bad := BknError.corruption "malformed vector index node"
  match bytes with
  | level :: a :: b :: c :: d :: rest =>
    let len := Bytes.ofBe [d, c, b, a]
    .guardOr (len ≤ rest.length ∧ (rest.length - len) % 4 = 0) bad
    return { level := level.toNat, pk := rest.take len,
             vector := (chunks4 (rest.drop len)).map ofLeBytes }
  | _ => throw bad

/-- One index: metadata, nodes by id, their links by id and layer, the ids by primary key. -/
structure Hnsw where
  /-- The table and column, for messages. -/
  name : String
  annMeta : AnnMeta
  nodes : OrdMap ℕ Node
  links : OrdMap (ℕ ×ₗ ℕ) (List ℕ)
  pks : OrdMap Bytes ℕ
  deriving DecidableEq

/-! ## The parameters of the computation -/

/-- What the graph takes from floating-point arithmetic: the distance, lower being closer, and the
number of levels `floor (-ln U / ln m)` for the `U` drawn from a hash. -/
structure Geometry (D : Type) where
  dist : VectorMetric → List F32 → List F32 → D
  levels : UInt64 → ℕ → ℕ

/-- The geometry in which all vectors coincide. -/
def flat : Geometry ℕ := ⟨fun _ _ _ ↦ 0, fun _ _ ↦ 0⟩

/-- FNV-1a over the primary key, finished with splitmix64. -/
def pkHash (pk : Bytes) : UInt64 :=
  let h : UInt64 := pk.foldl (fun h b ↦ (h ^^^ b.toUInt64) * 0x100000001b3) 0xcbf29ce484222325
  let h := h + 0x9e3779b97f4a7c15
  let h := (h ^^^ (h >>> 30)) * 0xbf58476d1ce4e5b9
  let h := (h ^^^ (h >>> 27)) * 0x94d049bb133111eb
  h ^^^ (h >>> 31)

/-- Deterministic level of a new node. -/
def levelFor {D : Type} (g : Geometry D) (pk : Bytes) (m : ℕ) : ℕ :=
  min (g.levels (pkHash pk) m) maxLevel

/-- The `f32`s of a `Float`/`Int` list element. -/
def component : PropValue → Option F32
  | .float f => some f.convert
  | .int i => some (.ofInt i.toInt)
  | _ => none

/-- A stored embedding: a list of numbers, or packed little-endian `f32`s. -/
def vectorOf : PropValue → Option (List F32)
  | .list items => items.mapM component
  | .bytes b => if b.length % 4 = 0 then some ((chunks4 b).map ofLeBytes) else none
  | _ => none

/-- The euclidean length. -/
def norm (v : List F32) : F32 := (IeeeFloat.sum (v.map fun x ↦ x.mul x)).sqrt

/-- The form a vector is indexed in; `none` for one that cannot match. -/
def prepare (metric : VectorMetric) (v : List F32) : Option (List F32) :=
  match metric with
  | .cosine =>
    if (norm v).eqv (.ofInt 0) || !(norm v).isFinite then none
    else some (v.map fun x ↦ x.div (norm v))
  | _ => some v

/-! ## Candidates -/

/-- A node and its distance to what is being searched for. -/
structure Cand (D : Type) where
  d : D
  id : ℕ

variable {D : Type} [LinearOrder D]

/-- By distance, ties by id. -/
def Cand.Le (a b : Cand D) : Prop := a.d < b.d ∨ a.d = b.d ∧ a.id ≤ b.id

instance : DecidableRel (Cand.Le (D := D)) := fun a b ↦
  inferInstanceAs (Decidable (a.d < b.d ∨ a.d = b.d ∧ a.id ≤ b.id))

namespace Hnsw

/-! ## Reading the graph -/

/-- Most links a node keeps on a layer. -/
def cap (h : Hnsw) (layer : ℕ) : ℕ := if layer = 0 then h.annMeta.m * 2 else h.annMeta.m

/-- The live node with an id. -/
def node (h : Hnsw) (id : ℕ) : Option Node := h.nodes.get? id

/-- A node's neighbours on a layer. -/
def linksOf (h : Hnsw) (id layer : ℕ) : List ℕ := (h.links.get? (toLex (id, layer))).getD []

/-- Store a node's neighbours. -/
def putLinks (h : Hnsw) (id layer : ℕ) (ids : List ℕ) : Hnsw :=
  { h with links := h.links.insert (toLex (id, layer)) ids }

variable (g : Geometry D)

/-- The entry point as a candidate. -/
def cand (h : Hnsw) (q : List F32) (id : ℕ) : Except BknError (Cand D) := do
  let n ← .ofOption (.corruption s!"vector index '{h.name}' lost its entry point") (h.node id)
  return ⟨g.dist h.annMeta.metric q n.vector, id⟩

/-! ## Best-first search -/

/-- The state of a layer search: the ids seen, the candidates to expand nearest first, and the
nearest found, nearest first. -/
structure Search (D : Type) where
  visited : List ℕ
  frontier : List (Cand D)
  best : List (Cand D)

/-- Look at one link target. -/
def visit (h : Hnsw) (q : List F32) (ef : ℕ) (s : Search D) (n : ℕ) : Search D :=
  if n ∈ s.visited then s
  else
    let s := { s with visited := n :: s.visited }
    match h.node n with
    | none => s
    | some node =>
      let c : Cand D := ⟨g.dist h.annMeta.metric q node.vector, n⟩
      if s.best.length < ef ∨ s.best.getLast?.any (fun w ↦ decide (c.d < w.d)) then
        let best := s.best.orderedInsert Cand.Le c
        { s with
          frontier := s.frontier.orderedInsert Cand.Le c
          -- the heap's maximum is the last of the sorted list
          best := if ef < best.length then best.dropLast else best }
      else s

/-- Live nodes not yet seen. -/
def unseen (h : Hnsw) (s : Search D) : ℕ := (h.nodes.keys.filter (· ∉ s.visited)).length

omit [LinearOrder D] in
theorem unseen_visited_le (h : Hnsw) {visited : List ℕ} {f b u v : List (Cand D)} (n : ℕ) :
    unseen h ⟨n :: visited, f, b⟩ ≤ unseen h ⟨visited, u, v⟩ := by
  refine (List.monotone_filter_right _ fun k hk ↦ ?_).length_le
  simp only [List.mem_cons, not_or, decide_eq_true_eq] at hk ⊢
  exact hk.2

omit [LinearOrder D] in
theorem unseen_visited_lt (h : Hnsw) {visited : List ℕ} {f b u v : List (Cand D)} {n : ℕ}
    {node : Node} (hn : h.node n = some node) (hv : n ∉ visited) :
    unseen h ⟨n :: visited, f, b⟩ < unseen h ⟨visited, u, v⟩ := by
  have hmem : n ∈ h.nodes.keys.filter (· ∉ visited) := by
    simpa [hv] using OrdMap.mem_keys.mpr ⟨node, hn⟩
  have heq : h.nodes.keys.filter (· ∉ n :: visited) =
      (h.nodes.keys.filter (· ∉ visited)).filter (· ≠ n) := by
    rw [List.filter_filter]
    exact List.filter_congr fun k _ ↦ by simp [not_or]
  rw [unseen, heq]
  exact List.length_filter_lt_length_iff_exists.mpr ⟨n, hmem, by simp⟩

theorem visit_measure (h : Hnsw) (q : List F32) (ef : ℕ) (s : Search D) (n : ℕ) :
    (visit g h q ef s n).frontier.length + unseen h (visit g h q ef s n) ≤
      s.frontier.length + unseen h s := by
  rw [visit]
  split
  · exact le_refl _
  · rename_i hv
    split
    · exact Nat.add_le_add_left (unseen_visited_le h n) _
    · rename_i node hn
      dsimp only
      split
      · have hlt := unseen_visited_lt (f := s.frontier) (b := s.best) (u := s.frontier)
          (v := s.best) h hn hv
        rw [List.orderedInsert_length]
        simp only [unseen] at hlt ⊢
        omega
      · exact Nat.add_le_add_left (unseen_visited_le h n) _

theorem foldl_visit_measure (h : Hnsw) (q : List F32) (ef : ℕ) (l : List ℕ) (s : Search D) :
    (l.foldl (visit g h q ef) s).frontier.length + unseen h (l.foldl (visit g h q ef) s) ≤
      s.frontier.length + unseen h s := by
  induction l generalizing s with
  | nil => exact le_refl _
  | cons n l ih => exact le_trans (ih _) (visit_measure g h q ef s n)

/-- Expand the nearest candidate until none is left, or none can improve on what was found. Each
round takes a candidate away, and only live nodes not seen before come in. -/
def searchLoop (h : Hnsw) (q : List F32) (ef layer : ℕ) (s : Search D) : List (Cand D) :=
  match hf : s.frontier with
  | [] => s.best
  | c :: rest =>
    if ef ≤ s.best.length ∧ s.best.getLast?.any (fun w ↦ decide (w.d < c.d)) then s.best
    else
      searchLoop h q ef layer
        ((h.linksOf c.id layer).foldl (visit g h q ef) { s with frontier := rest })
termination_by s.frontier.length + unseen h s
decreasing_by
  have hle := foldl_visit_measure g h q ef (h.linksOf c.id layer) { s with frontier := rest }
  simp only [unseen] at hle ⊢
  rw [hf, List.length_cons]
  omega

/-- Best-first search of one layer from `eps`, keeping the `ef` closest, nearest first. -/
def searchLayer (h : Hnsw) (q : List F32) (eps : List (Cand D)) (ef layer : ℕ) : List (Cand D) :=
  let sorted := eps.insertionSort Cand.Le
  searchLoop g h q ef layer ⟨eps.map Cand.id, sorted, sorted.take ef⟩

/-- Greedy descent from the entry point to layer `downTo`. -/
def descend (h : Hnsw) (q : List F32) (downTo : ℕ) : Except BknError (List (Cand D)) := do
  let entry ← .ofOption (.panic "descend on an empty index") h.annMeta.entry
  let c ← cand g h q entry
  -- layers `maxLevel`, …, `downTo + 1`
  let layers := (List.range (h.annMeta.maxLevel - downTo)).map (h.annMeta.maxLevel - ·)
  return layers.foldl (fun eps layer ↦ searchLayer g h q eps 1 layer) [c]

/-! ## Choosing neighbours -/

/-- Walk the candidates, nearest first, keeping one only if it is closer to the base than to every
node kept before it. -/
def selectFrom (h : Hnsw) (m : ℕ) : List (Cand D) → List Node → List ℕ → List ℕ
  | [], _, out => out
  | c :: l, kept, out =>
    if m ≤ out.length then out
    else
      match h.node c.id with
      | none => selectFrom h m l kept out
      | some node =>
        if kept.all fun k ↦ decide (c.d < g.dist h.annMeta.metric node.vector k.vector) then
          selectFrom h m l (kept ++ [node]) (out ++ [c.id])
        else selectFrom h m l kept out

/-- The neighbour-selection heuristic. -/
def select (h : Hnsw) (candidates : List (Cand D)) (m : ℕ) : List ℕ :=
  selectFrom g h m candidates [] []

/-- `ids` as `owner`'s links: dead ids dropped, and narrowed down when there are too many. -/
def shrink (h : Hnsw) (owner : Node) (ids : List ℕ) (layer : ℕ) : List ℕ :=
  let cands : List (Cand D) := ids.filterMap fun id ↦
    (h.node id).map fun n ↦ ⟨g.dist h.annMeta.metric owner.vector n.vector, id⟩
  if cands.length ≤ h.cap layer then cands.map Cand.id
  else select g h (cands.insertionSort Cand.Le) (h.cap layer)

/-! ## Insertion -/

/-- Add `id` to the links of one neighbour. -/
def linkBack (id layer : ℕ) (h : Hnsw) (n : ℕ) : Hnsw :=
  match h.node n with
  | none => h
  | some other => h.putLinks n layer (shrink g h other (h.linksOf n layer ++ [id]) layer)

/-- Link a new node on one layer; the candidates found are the entry points of the next. -/
def linkLayer (id : ℕ) (vector : List F32) (st : Hnsw × List (Cand D)) (layer : ℕ) :
    Hnsw × List (Cand D) :=
  let (h, eps) := st
  let found := searchLayer g h vector eps (max h.annMeta.efConstruction h.annMeta.m) layer
  let neighbours := select g h found h.annMeta.m
  (neighbours.foldl (linkBack g id layer) (h.putLinks id layer neighbours), found)

/-- The dimension of the first vector is kept, as a `u32`, and asked of the others. -/
def checkDim (h : Hnsw) (len : ℕ) : Except BknError Hnsw :=
  if h.annMeta.count = 0 then
    .ok { h with annMeta := { h.annMeta with dim := len % 2 ^ 32 } }
  else if len = h.annMeta.dim then .ok h
  else .error (.invalidQuery (s!"vector index '{h.name}' holds {h.annMeta.dim}-dimensional " ++
    s!"vectors; this row has {len}"))

/-- Write the node and its primary key. -/
def place (h : Hnsw) (n : Node) : Except BknError Hnsw := do
  let nextId ← checkedAdd h.annMeta.nextId 1
  let count ← checkedAdd h.annMeta.count 1
  return { h with
    annMeta := { h.annMeta with nextId, count }
    nodes := h.nodes.insert h.annMeta.nextId n
    pks := h.pks.insert n.pk h.annMeta.nextId }

/-- Make a node the entry point. -/
def setEntry (h : Hnsw) (id level : ℕ) : Hnsw :=
  { h with annMeta := { h.annMeta with entry := some id, maxLevel := level } }

/-- Link a node that was just written, from its top layer down. -/
def link (h : Hnsw) (id : ℕ) (n : Node) : Except BknError Hnsw := do
  if h.annMeta.entry = none then return setEntry h id n.level
  let top := min n.level h.annMeta.maxLevel
  let eps ← descend g h n.vector top
  let h := ((List.range (top + 1)).reverse.foldl (linkLayer g id n.vector) (h, eps)).1
  return if h.annMeta.maxLevel < n.level then setEntry h id n.level else h

/-- Index a vector for the row `pk`, which is not yet in the index. -/
def add (h : Hnsw) (pk : Bytes) (vector : List F32) : Except BknError Hnsw := do
  if vector = [] then return h
  let h ← checkDim h vector.length
  match prepare h.annMeta.metric vector with
  | none => return h
  | some vector =>
    let n : Node := ⟨levelFor g pk h.annMeta.m, pk, vector⟩
    link g (← place h n) h.annMeta.nextId n

/-! ## Removal

Each neighbour of the removed node that linked back gets the other neighbours offered in its place,
so that the graph is not torn apart where a node is taken out. -/

/-- The links of `n` once `id` is gone, with the other neighbours of `id` offered in its place. -/
def replaced (id n : ℕ) (list theirs : List ℕ) : List ℕ :=
  list.foldl (fun t x ↦ if x ≠ n ∧ x ∉ t then t ++ [x] else t) (theirs.filter (· ≠ id))

/-- Repair one neighbour of the removed node, if it linked back. -/
def unlink (id layer : ℕ) (list : List ℕ) (h : Hnsw) (n : ℕ) : Hnsw :=
  match h.node n with
  | none => h
  | some other =>
    let theirs := h.linksOf n layer
    if (theirs.filter (· ≠ id)).length = theirs.length then h
    else h.putLinks n layer (shrink g h other (replaced id n list theirs) layer)

/-- Take the removed node off one layer. -/
def unlinkLayer (id : ℕ) (st : Hnsw × List (List ℕ)) (layer : ℕ) : Hnsw × List (List ℕ) :=
  let (h, byLayer) := st
  let list := h.linksOf id layer
  let h := { h with links := h.links.erase (toLex (id, layer)) }
  (list.foldl (unlink g id layer list) h, byLayer ++ [list])

/-- The first of the highest-level entries. -/
def highest (l : List (ℕ × ℕ)) : Option (ℕ × ℕ) :=
  l.foldl (fun best e ↦ if best.all fun b ↦ decide (b.1 < e.1) then some e else best) none

/-- The best surviving neighbour on the highest layer that has one. -/
def survivor (h : Hnsw) : List (List ℕ) → Option (ℕ × ℕ)
  | [] => none
  | list :: rest =>
    match highest (list.filterMap fun n ↦ (h.node n).map fun o ↦ (o.level, n)) with
    | some e => some e
    | none => survivor h rest

/-- Elect an entry point after the old one is gone: a neighbour of it, or the highest node. -/
def elect (h : Hnsw) (byLayer : List (List ℕ)) : Hnsw :=
  let choice := (survivor h byLayer.reverse).or
    (if 0 < h.annMeta.count then highest (h.nodes.entries.map fun e ↦ (e.2.level, e.1)) else none)
  match choice with
  | some (level, n) => setEntry h n level
  | none => { h with annMeta := { h.annMeta with entry := none, maxLevel := 0 } }

/-- Remove the row `pk` from the index; nothing happens if it is not in it. -/
def remove (h : Hnsw) (pk : Bytes) : Hnsw :=
  match h.pks.get? pk with
  | none => h
  | some id =>
    let found := h.node id
    let h := { h with pks := h.pks.erase pk, nodes := h.nodes.erase id }
    match found with
    | none => h
    | some node =>
      let h := { h with annMeta := { h.annMeta with count := h.annMeta.count - 1 } }
      let (h, byLayer) := (List.range (node.level + 1)).foldl (unlinkLayer g id) (h, [])
      if h.annMeta.entry = some id then elect h byLayer else h

/-- Follow one row change in the indexed column. -/
def onChange (h : Hnsw) (pk : Bytes) (before after : Option PropValue) : Except BknError Hnsw := do
  if PropValue.eqvOption before after then return h
  let h := if before.isSome then remove g h pk else h
  match after.bind vectorOf with
  | some v => add g h pk v
  | none => return h

/-- The sortable keys of up to `ef` indexed rows nearest to the prepared query, nearest first. -/
def search (h : Hnsw) (q : List F32) (ef : ℕ) : Except BknError (List Bytes) := do
  if h.annMeta.entry = none then return []
  let eps ← descend g h q 0
  return (searchLayer g h q eps ef 0).filterMap fun c ↦ (h.node c.id).map Node.pk

end Hnsw

end Ann
