import Bkndb.Core.Error

/-!
# Graph records and keys

The binary key layout of the graph layer (`graph/codec.rs`, `graph/model.rs`). Every identifier in
a key is a fixed-width big-endian integer and every name is length prefixed, so that the keys of
one node, or of one node and edge type, form a range of the table.

## Layout

* A node or an edge is stored under its identifier, in eight bytes.
* An adjacency row is the node, the length-prefixed type, the node at the other end, and the edge.

The length in front of a type has two bytes and is cast down to them. A type of 65536 bytes or more
is therefore stored with a length that is not its own, and its rows decode to other fields or to
none.
-/

/-- A node's identifier. -/
structure NodeId where
  /-- The number. -/
  id : UInt64
  deriving DecidableEq, Repr

/-- An edge's identifier. -/
structure EdgeId where
  /-- The number. -/
  id : UInt64
  deriving DecidableEq, Repr

/-- What is stored for a node. -/
structure NodeRecord where
  /-- The node's label. -/
  label : String
  /-- Its named values. -/
  properties : Properties

/-- What is stored for an edge. -/
structure EdgeRecord where
  /-- The node it comes `from`. -/
  src : NodeId
  /-- The node it goes `to`. -/
  dst : NodeId
  /-- The edge's type. -/
  edgeType : String
  /-- Its named values. -/
  properties : Properties

namespace Graph

/-! ## Keys -/

/-- `u64::from_be_bytes` of eight bytes starting at an offset. -/
def u64At (key : Bytes) (off : ℕ) : UInt64 := UInt64.ofNat (Bytes.ofBe ((key.drop off).take 8))

/-- The key of a node. -/
def nodeKey (id : NodeId) : Bytes := Bytes.be 8 id.id.toNat

/-- The node behind a key. -/
def decodeNodeId (b : Bytes) : Except BknError NodeId :=
  if b.length = 8 then .ok ⟨UInt64.ofNat (Bytes.ofBe b)⟩
  else .error (.encoding "invalid node key length")

/-- The key of an edge. -/
def edgeKey (id : EdgeId) : Bytes := Bytes.be 8 id.id.toNat

/-- The exclusive upper bound of the keys starting with a node's identifier; `none` only for the
greatest one. -/
def nextNodePrefix (id : NodeId) : Option Bytes :=
  if id.id.toNat + 1 < 2 ^ 64 then some (Bytes.be 8 (id.id.toNat + 1)) else none

/-- The length-prefixed edge type. The length is cast with `as u16`. -/
def encodeEdgeType (t : String) : Bytes := Bytes.lenPrefixed t.utf8

/-- The two identifiers of an adjacency row around its type, then the edge. -/
def encodeAdjKey (first : NodeId) (edgeType : String) (second : NodeId) (edge : EdgeId) : Bytes :=
  Bytes.be 8 first.id.toNat ++ encodeEdgeType edgeType ++ Bytes.be 8 second.id.toNat ++
    Bytes.be 8 edge.id.toNat

/-- The key of an edge in the outgoing adjacency table. -/
def adjOutKey (src : NodeId) (edgeType : String) (dst : NodeId) (edge : EdgeId) : Bytes :=
  encodeAdjKey src edgeType dst edge

/-- The key of an edge in the incoming adjacency table. -/
def adjInKey (dst : NodeId) (edgeType : String) (src : NodeId) (edge : EdgeId) : Bytes :=
  encodeAdjKey dst edgeType src edge

/-- The common prefix of the adjacency rows of a node and a type. -/
def adjTypePrefix (first : NodeId) (edgeType : String) : Bytes :=
  Bytes.be 8 first.id.toNat ++ encodeEdgeType edgeType

/-- The inclusive upper bound of those rows. -/
def adjTypeUpperBound (first : NodeId) (edgeType : String) : Bytes :=
  adjTypePrefix first edgeType ++ List.replicate 16 0xFF

/-- The four fields of an adjacency key. Every slice panics past the end of the key. -/
def decodeAdjKey (key : Bytes) : Except BknError (NodeId × String × NodeId × EdgeId) := do
  .guardOr (10 ≤ key.length) (.panic "range end index out of range for slice")
  let len := Bytes.ofBe ((key.drop 8).take 2)
  .guardOr (10 + len ≤ key.length) (.panic "range end index out of range for slice")
  let edgeType ← .ofOption (.panic "edge_type is valid utf8") (fromUtf8 ((key.drop 10).take len))
  let off := 10 + len
  .guardOr (off + 16 ≤ key.length) (.panic "range end index out of range for slice")
  return (⟨u64At key 0⟩, edgeType, ⟨u64At key off⟩, ⟨u64At key (off + 8)⟩)

/-! ## Round trips -/

@[simp] theorem length_nodeKey (id : NodeId) : (nodeKey id).length = 8 := Bytes.length_be ..

theorem nodeKey_injective : Function.Injective nodeKey := by
  intro a b h
  have := Bytes.be_injective a.id.toNat_lt b.id.toNat_lt h
  cases a
  cases b
  simpa [UInt64.toNat_inj] using this

theorem edgeKey_injective : Function.Injective edgeKey := by
  intro a b h
  have := Bytes.be_injective a.id.toNat_lt b.id.toNat_lt h
  cases a
  cases b
  simpa [UInt64.toNat_inj] using this

theorem nodeKey_lt_iff {a b : NodeId} : nodeKey a < nodeKey b ↔ a.id.toNat < b.id.toNat :=
  Bytes.be_lt_be_iff (w := 8) a.id.toNat_lt b.id.toNat_lt

@[simp] theorem nodeKey_inj {a b : NodeId} : nodeKey a = nodeKey b ↔ a = b :=
  nodeKey_injective.eq_iff

@[simp] theorem edgeKey_inj {a b : EdgeId} : edgeKey a = edgeKey b ↔ a = b :=
  edgeKey_injective.eq_iff

private theorem ofNat_ofBe_be (n : UInt64) : UInt64.ofNat (Bytes.ofBe (Bytes.be 8 n.toNat)) = n := by
  rw [Bytes.ofBe_be_of_lt n.toNat_lt, UInt64.ofNat_toNat]

theorem u64At_append {a b : Bytes} {off : ℕ} {n : UInt64} (ha : a.length = off) :
    u64At (a ++ (Bytes.be 8 n.toNat ++ b)) off = n := by
  rw [u64At, List.drop_left' ha, List.take_left' (Bytes.length_be ..), ofNat_ofBe_be]

@[simp] theorem decodeNodeId_nodeKey (id : NodeId) : decodeNodeId (nodeKey id) = .ok id := by
  rw [decodeNodeId, if_pos (length_nodeKey id), nodeKey, ofNat_ofBe_be]

/-- A type whose length fits its two-byte field. -/
def ShortType (t : String) : Prop := t.utf8.length < 256 ^ 2

instance (t : String) : Decidable (ShortType t) := inferInstanceAs (Decidable (_ < _))

theorem length_encodeEdgeType (t : String) : (encodeEdgeType t).length = 2 + t.utf8.length := by
  rw [encodeEdgeType, Bytes.lenPrefixed, List.length_append, Bytes.length_be]

/-- **Adjacency keys decode to their fields.** -/
theorem decodeAdjKey_encodeAdjKey {first second : NodeId} {t : String} {edge : EdgeId}
    (ht : ShortType t) :
    decodeAdjKey (encodeAdjKey first t second edge) = .ok (first, t, second, edge) := by
  -- the key regrouped at each of the offsets that are read
  have h0 : encodeAdjKey first t second edge = [] ++ (Bytes.be 8 first.id.toNat ++
      (encodeEdgeType t ++ Bytes.be 8 second.id.toNat ++ Bytes.be 8 edge.id.toNat)) := by
    simp [encodeAdjKey]
  have h8 : encodeAdjKey first t second edge = Bytes.be 8 first.id.toNat ++
      (Bytes.be 2 t.utf8.length ++ (t.utf8 ++ (Bytes.be 8 second.id.toNat ++
        Bytes.be 8 edge.id.toNat))) := by
    simp [encodeAdjKey, encodeEdgeType, Bytes.lenPrefixed]
  have h10 : encodeAdjKey first t second edge =
      (Bytes.be 8 first.id.toNat ++ Bytes.be 2 t.utf8.length) ++ (t.utf8 ++
        (Bytes.be 8 second.id.toNat ++ Bytes.be 8 edge.id.toNat)) := by
    simp [encodeAdjKey, encodeEdgeType, Bytes.lenPrefixed]
  have hoff : encodeAdjKey first t second edge =
      (Bytes.be 8 first.id.toNat ++ encodeEdgeType t) ++ (Bytes.be 8 second.id.toNat ++
        Bytes.be 8 edge.id.toNat) := by
    simp [encodeAdjKey]
  have hend : encodeAdjKey first t second edge =
      (Bytes.be 8 first.id.toNat ++ encodeEdgeType t ++ Bytes.be 8 second.id.toNat) ++
        (Bytes.be 8 edge.id.toNat ++ []) := by
    simp [encodeAdjKey]
  have hlength : (encodeAdjKey first t second edge).length = 26 + t.utf8.length := by
    rw [h8]
    simp
    omega
  have hlen : Bytes.ofBe (((encodeAdjKey first t second edge).drop 8).take 2) = t.utf8.length := by
    rw [h8, List.drop_left' (Bytes.length_be ..), List.take_left' (Bytes.length_be ..),
      Bytes.ofBe_be_of_lt ht]
  have htype : ((encodeAdjKey first t second edge).drop 10).take t.utf8.length = t.utf8 := by
    rw [h10, List.drop_left' (by simp), List.take_left' rfl]
  have hfirst : u64At (encodeAdjKey first t second edge) 0 = first.id := by
    rw [h0, u64At_append List.length_nil]
  have hsecond : u64At (encodeAdjKey first t second edge) (10 + t.utf8.length) = second.id := by
    rw [hoff, u64At_append]
    rw [List.length_append, Bytes.length_be, length_encodeEdgeType]
    omega
  have hedge : u64At (encodeAdjKey first t second edge) (10 + t.utf8.length + 8) = edge.id := by
    rw [hend, u64At_append]
    rw [List.length_append, List.length_append, Bytes.length_be, Bytes.length_be,
      length_encodeEdgeType]
    omega
  simp only [decodeAdjKey, hlength, hlen, htype, fromUtf8_utf8, hfirst, hsecond, hedge,
    Except.guardOr, Except.ofOption]
  rw [if_pos (by omega), if_pos (by omega), if_pos (by omega)]
  rfl

theorem encodeAdjKey_inj {a b c d : NodeId} {t u : String} {e f : EdgeId} (ht : ShortType t)
    (hu : ShortType u) :
    encodeAdjKey a t b e = encodeAdjKey c u d f ↔ a = c ∧ t = u ∧ b = d ∧ e = f := by
  constructor
  · intro h
    have hdec := @decodeAdjKey_encodeAdjKey a b t e ht
    rw [h, decodeAdjKey_encodeAdjKey hu] at hdec
    simpa [eq_comm] using hdec
  · rintro ⟨rfl, rfl, rfl, rfl⟩
    rfl

/-! ## Ranges -/

/-- The rows between a node's key and the next are the rows starting with that node. -/
theorem encodeAdjKey_mem_node {node first second : NodeId} {t : String} {edge : EdgeId} :
    (Bound.included (nodeKey node)).Above (encodeAdjKey first t second edge) ∧
      (Bound.stop (nextNodePrefix node)).Below (encodeAdjKey first t second edge) ↔
        first = node := by
  have hkey : encodeAdjKey first t second edge = nodeKey first ++
      (encodeEdgeType t ++ Bytes.be 8 second.id.toNat ++ Bytes.be 8 edge.id.toNat) := by
    simp [encodeAdjKey, nodeKey]
  have hself : ∀ {a b : NodeId} {rest : Bytes}, a.id.toNat < b.id.toNat →
      nodeKey a ++ rest < nodeKey b := by
    intro a b rest h
    have := Bytes.append_lt_append_of_lt (by simp)
      ((Bytes.be_lt_be_iff (w := 8) a.id.toNat_lt b.id.toNat_lt).mpr h) rest []
    simpa [nodeKey] using this
  have heq : ∀ {a b : NodeId}, a.id.toNat = b.id.toNat → a = b := by
    rintro ⟨a⟩ ⟨b⟩ h
    simpa [UInt64.toNat_inj] using h
  rw [hkey]
  constructor
  · rintro ⟨hlo, hhi⟩
    have hge : node.id.toNat ≤ first.id.toNat := by
      by_contra hlt
      exact absurd (hself (not_le.mp hlt)) (not_lt.mpr hlo)
    rcases eq_or_lt_of_le hge with h | h
    · exact heq h.symm
    · -- a greater identifier is at or after the next prefix
      have hmax := first.id.toNat_lt
      rw [nextNodePrefix, if_pos (by omega)] at hhi
      have hle : Bytes.be 8 (node.id.toNat + 1) ≤ nodeKey first :=
        (Bytes.be_le_be_iff (by omega) first.id.toNat_lt).mpr h
      exact absurd (le_trans hle (Bytes.le_of_isPrefix (List.prefix_append _ _))) (not_le.mpr hhi)
  · rintro rfl
    refine ⟨Bytes.le_of_isPrefix (List.prefix_append _ _), ?_⟩
    rw [nextNodePrefix]
    split_ifs with h
    · have := Bytes.append_lt_append_of_lt (by simp)
        ((Bytes.be_lt_be_iff (w := 8) first.id.toNat_lt h).mpr (Nat.lt_succ_self _))
        (encodeEdgeType t ++ Bytes.be 8 second.id.toNat ++ Bytes.be 8 edge.id.toNat) []
      simpa [nodeKey, Bound.stop] using this
    · trivial

/-- The rows between a type's two bounds are the rows of that node and type. -/
theorem encodeAdjKey_mem_type {node first second : NodeId} {t u : String} {edge : EdgeId}
    (ht : ShortType t) (hu : ShortType u) :
    (Bound.included (adjTypePrefix node t)).Above (encodeAdjKey first u second edge) ∧
      (Bound.included (adjTypeUpperBound node t)).Below (encodeAdjKey first u second edge) ↔
      first = node ∧ u = t := by
  have hkey : encodeAdjKey first u second edge = adjTypePrefix first u ++
      (Bytes.be 8 second.id.toNat ++ Bytes.be 8 edge.id.toNat) := by
    simp [encodeAdjKey, adjTypePrefix]
  constructor
  · rintro ⟨hlo, hhi⟩
    obtain ⟨rest, hrest⟩ := Bytes.isPrefix_of_le_append hlo hhi
    rw [hkey, adjTypePrefix, adjTypePrefix, List.append_assoc, List.append_assoc] at hrest
    obtain ⟨hid, htail⟩ := Bytes.append_inj_of_length (by simp) hrest
    obtain ⟨htype, -⟩ := Bytes.lenPrefixed_append_inj ht hu htail
    exact ⟨(nodeKey_injective hid).symm, (String.utf8_injective htype).symm⟩
  · rintro ⟨rfl, rfl⟩
    rw [hkey]
    refine ⟨Bytes.le_of_isPrefix (List.prefix_append _ _), ?_⟩
    refine (Bytes.append_le_append_iff _).mpr ?_
    simpa using Bytes.le_replicate_max (Bytes.be 8 second.id.toNat ++ Bytes.be 8 edge.id.toNat)

end Graph
