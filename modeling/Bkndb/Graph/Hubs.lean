import Bkndb.Basic.Selection
import Bkndb.Graph.Traversal
import Bkndb.Graph.Maintain

/-!
# Top hubs

The nodes with the most edges (`graph/db/ops.rs`), selected with a heap of bounded size. The heap is
drained in descending order and the result reversed, so that it ascends. The selection is right, and
the order is right only where the degrees are equal.

## Main results

* `topHubsIn_drained`: whatever the operation returns are the candidates with the greatest degrees,
  in ascending order.
* `topHubs_iff_of_run`: it returns what is asked for exactly when the label can be looked up, the
  heap can be allocated and the degrees are tied.
-/

namespace GraphStore

open Graph Selection

/-! ## The operation -/

/-- How many rows start or end at a node. -/
def degreeIn (s : GraphStore) (direction : Direction) (node : NodeId) : Except BknError ℕ := do
  match direction with
  | .out => return (← neighborsAnyIn s.adjOut node).length
  | .in => return (← neighborsAnyIn s.adjIn node).length
  | .both =>
    return (← neighborsAnyIn s.adjOut node).length + (← neighborsAnyIn s.adjIn node).length

/-- The nodes with a label, or all of them. -/
def hubCandidates (s : GraphStore) : Option String → Except BknError (List NodeId)
  | some label => s.nodesByLabelIn label
  | none => (s.nodes.range .unbounded .unbounded).mapM fun e ↦ decodeNodeId e.1

/-- The heap after all candidates; it is allocated for `limit` entries of sixteen bytes. -/
def hubHeap (s : GraphStore) (limit : ℕ) (direction : Direction) (candidates : List NodeId) :
    Except BknError (List (ℕ ×ₗ ℕ)) := do
  .guardOr (16 * limit < 2 ^ 63) (.panic "capacity overflow")
  candidates.foldlM (fun heap node ↦ do
    return offer limit heap (toLex (← s.degreeIn direction node, node.id.toNat))) []

/-- The nodes with the most edges, and how many they have. -/
def topHubsIn (s : GraphStore) (limit : ℕ) (direction : Direction) (labelFilter : Option String) :
    Except BknError (List (NodeId × ℕ)) := do
  if limit = 0 then return []
  let candidates ← s.hubCandidates labelFilter
  let heap ← s.hubHeap limit direction candidates
  let sorted := heap.mergeSort fun a b ↦ decide (b ≤ a)
  return (sorted.map fun x ↦ ((⟨UInt64.ofNat (ofLex x).2⟩ : NodeId), (ofLex x).1)).reverse

/-! ## What it is for

The definitions of this part say what the most connected nodes are, in terms of the edges that
exist, and mention neither rows nor heaps. Among candidates of equal degree any choice is right. -/

/-- A node with the label that is asked for, if there is one. -/
def Candidate (s : GraphStore) (labelFilter : Option String) (node : NodeId) : Prop :=
  ∃ r, s.getNodeIn node = some r ∧ ∀ label, labelFilter = some label → r.label = label

/-- The edges with an end at a node are `n` in number. -/
def EdgeCount (s : GraphStore) (atEnd : EdgeRecord → NodeId) (node : NodeId) (n : ℕ) : Prop :=
  ∃ edges : List EdgeId, edges.Nodup ∧ edges.length = n ∧
    ∀ e, e ∈ edges ↔ ∃ r, s.getEdgeIn e = some r ∧ atEnd r = node

/-- The degree of a node. An edge from a node to itself is counted twice in both directions. -/
def Degree (s : GraphStore) (direction : Direction) (node : NodeId) (n : ℕ) : Prop :=
  match direction with
  | .out => s.EdgeCount EdgeRecord.src node n
  | .in => s.EdgeCount EdgeRecord.dst node n
  | .both => ∃ out incoming, s.EdgeCount EdgeRecord.src node out ∧
      s.EdgeCount EdgeRecord.dst node incoming ∧ n = out + incoming

/-- As many candidates as the limit admits, those with the most edges, in descending order. -/
structure TopHubs (s : GraphStore) (limit : ℕ) (direction : Direction)
    (labelFilter : Option String) (hubs : List (NodeId × ℕ)) : Prop where
  /-- No node twice. -/
  nodup : (hubs.map Prod.fst).Nodup
  /-- Candidates with their degrees. -/
  mem : ∀ x ∈ hubs, s.Candidate labelFilter x.1 ∧ s.Degree direction x.1 x.2
  /-- As many as there are, up to the limit. -/
  length : ∀ all : List NodeId, all.Nodup → (∀ node, node ∈ all ↔ s.Candidate labelFilter node) →
    hubs.length = min limit all.length
  /-- No candidate that is left out has more edges than one that is returned. -/
  best : ∀ node n, s.Candidate labelFilter node → s.Degree direction node n →
    node ∉ hubs.map Prod.fst → ∀ x ∈ hubs, n ≤ x.2
  /-- In descending order. -/
  sorted : hubs.Pairwise fun x y ↦ y.2 ≤ x.2

/-- There are `limit` candidates that no candidate exceeds, or all candidates have one degree. -/
def TopTied (s : GraphStore) (limit : ℕ) (direction : Direction) (labelFilter : Option String) :
    Prop :=
  (∃ tied : List NodeId, tied.Nodup ∧ tied.length = limit ∧ ∀ node ∈ tied,
    s.Candidate labelFilter node ∧ ∀ other m n, s.Candidate labelFilter other →
      s.Degree direction other m → s.Degree direction node n → m ≤ n) ∨
  ∀ node other m n, s.Candidate labelFilter node → s.Candidate labelFilter other →
    s.Degree direction node m → s.Degree direction other n → m = n

variable {s : GraphStore} {limit : ℕ} {direction : Direction} {labelFilter : Option String}
  {node : NodeId} {m n : ℕ}

/-! ## Degrees -/

theorem EdgeCount.unique {atEnd : EdgeRecord → NodeId} (hm : s.EdgeCount atEnd node m)
    (hn : s.EdgeCount atEnd node n) : m = n := by
  obtain ⟨edges, hnodup, rfl, hmem⟩ := hm
  obtain ⟨edges', hnodup', rfl, hmem'⟩ := hn
  exact ((List.perm_ext_iff_of_nodup hnodup hnodup').mpr
    fun e ↦ (hmem e).trans (hmem' e).symm).length_eq

theorem Degree.unique (hm : s.Degree direction node m) (hn : s.Degree direction node n) :
    m = n := by
  cases direction with
  | out => exact EdgeCount.unique hm hn
  | «in» => exact EdgeCount.unique hm hn
  | both =>
    obtain ⟨a, b, ha, hb, rfl⟩ := hm
    obtain ⟨a', b', ha', hb', rfl⟩ := hn
    rw [ha.unique ha', hb.unique hb']

theorem RowsOf.edgeCount {table : OrdMap Bytes Unit} {first second : EdgeRecord → NodeId}
    (hs : s.RowsOf table first second) (node : NodeId) :
    ∃ l, GraphStore.neighborsAnyIn table node = .ok l ∧ s.EdgeCount first node l.length := by
  obtain ⟨l, hl, hnodup, hmem⟩ := hs.neighborsAnyIn node
  refine ⟨l, hl, l.map fun row ↦ row.2.2, ?_, List.length_map _, fun e ↦ ?_⟩
  · -- a row is determined by its edge
    refine hnodup.map_on ?_
    rintro ⟨t, other, e⟩ h ⟨t', other', e'⟩ h' (rfl : e = e')
    obtain ⟨r, hr, -, rfl, rfl⟩ := (hmem _ _ _).mp h
    obtain ⟨r', hr', -, rfl, rfl⟩ := (hmem _ _ _).mp h'
    obtain rfl := Option.some.inj (hr.symm.trans hr')
    rfl
  · constructor
    · intro he
      obtain ⟨⟨t, other, e'⟩, hrow, rfl⟩ := List.mem_map.mp he
      obtain ⟨r, hr, hfirst, -⟩ := (hmem _ _ _).mp hrow
      exact ⟨r, hr, hfirst⟩
    · rintro ⟨r, hr, hfirst⟩
      exact List.mem_map.mpr
        ⟨(r.edgeType, second r, e), (hmem _ _ _).mpr ⟨r, hr, hfirst, rfl, rfl⟩, rfl⟩

/-- **The rows of a node are counted by its degree.** -/
theorem EdgesOk.degreeIn (hs : s.EdgesOk) (direction : Direction) (node : NodeId) :
    ∃ n, s.degreeIn direction node = .ok n ∧ s.Degree direction node n := by
  obtain ⟨out, hout, hcountOut⟩ := hs.rowsOut.edgeCount node
  obtain ⟨incoming, hin, hcountIn⟩ := hs.rowsIn.edgeCount node
  cases direction with
  | out => exact ⟨out.length, by rw [GraphStore.degreeIn, hout]; rfl, hcountOut⟩
  | «in» => exact ⟨incoming.length, by rw [GraphStore.degreeIn, hin]; rfl, hcountIn⟩
  | both =>
    refine ⟨out.length + incoming.length, ?_, _, _, hcountOut, hcountIn, rfl⟩
    rw [GraphStore.degreeIn, hout, Except.ok_bind, hin]
    rfl

/-! ## Candidates -/

/-- A label that can be looked up: it fits its length field, or there is no index of labels. -/
def LabelFits (s : GraphStore) (labelFilter : Option String) : Prop :=
  ∀ label, labelFilter = some label → ShortName label ∨ s.labelIndexReady = false

/-- Node identifiers that ascend are distinct. -/
theorem nodup_of_ascending {ids : List NodeId}
    (h : ids.Pairwise fun a b ↦ a.id.toNat < b.id.toNat) : ids.Nodup :=
  h.imp fun hlt heq ↦ absurd (heq ▸ hlt) (lt_irrefl _)

theorem hubCandidates_spec (hs : s.LabelsOk) (hl : s.LabelFits labelFilter) :
    ∃ ids, s.hubCandidates labelFilter = .ok ids ∧ ids.Nodup ∧
      ∀ node, node ∈ ids ↔ s.Candidate labelFilter node := by
  cases labelFilter with
  | some label =>
    obtain ⟨ids, hids, hby⟩ := nodesByLabelIn_spec hs (hl label rfl)
    exact ⟨ids, hids, nodup_of_ascending hby.sorted, fun node ↦ by simp [hby.mem, Candidate]⟩
  | none =>
    obtain ⟨ids, hids, hR⟩ := Except.mapM_exists (l := s.nodes.range .unbounded .unbounded)
      (f := fun e ↦ decodeNodeId e.1) (Q := fun e id ↦ e.1 = nodeKey id) (by
        rintro ⟨k, r⟩ he
        rw [OrdMap.range_unbounded, OrdMap.mem_entries] at he
        obtain ⟨id, rfl⟩ := hs.nodeKey k (OrdMap.contains_iff.mpr ⟨r, he⟩)
        exact ⟨id, decodeNodeId_nodeKey id, rfl⟩)
    refine ⟨ids, hids, nodup_of_ascending (hR.pairwise_right (s.nodes.range_sorted _ _) ?_),
      fun node ↦ ?_⟩
    · rintro ⟨k, r⟩ ⟨k', r'⟩ a b hk hk' hlt
      exact nodeKey_lt_iff.mp (hk ▸ hk' ▸ hlt)
    · simp only [Candidate, reduceCtorEq, false_imp_iff, implies_true, and_true]
      constructor
      · intro h
        obtain ⟨⟨k, r⟩, he, hk⟩ := hR.exists_left h
        obtain rfl : k = nodeKey node := hk
        rw [OrdMap.range_unbounded, OrdMap.mem_entries] at he
        exact ⟨r, he⟩
      · rintro ⟨r, hr⟩
        have he : (nodeKey node, r) ∈ s.nodes.range .unbounded .unbounded := by
          rw [OrdMap.range_unbounded, OrdMap.mem_entries]
          exact hr
        obtain ⟨id, hid, hk⟩ := hR.exists_right he
        rwa [nodeKey_injective hk]

theorem not_labelFits_error (hl : ¬s.LabelFits labelFilter) :
    ∃ e, s.hubCandidates labelFilter = .error e := by
  simp only [LabelFits, not_forall, not_or] at hl
  obtain ⟨label, rfl, hlong, hready⟩ := hl
  rw [hubCandidates, nodesByLabelIn, if_pos (by simpa using hready)]
  cases h : labelPrefix label with
  | error e => exact ⟨e, rfl⟩
  | ok p => exact absurd (labelPrefix_eq_ok.mp h).1 hlong

/-! ## The selection

A heap of bounded size keeps what is greatest by its first component, the degree. Which of equals it
keeps does not matter: `TopHubs` admits any choice. -/

/-- What is drained from the heap: the candidates with the greatest degrees, ascending. -/
structure Drained (limit : ℕ) (all hubs rest : List (NodeId × ℕ)) : Prop where
  perm : all.Perm (hubs ++ rest)
  length_le : hubs.length ≤ limit
  full : rest ≠ [] → hubs.length = limit
  best : ∀ x ∈ hubs, ∀ y ∈ rest, y.2 ≤ x.2
  ascending : hubs.Pairwise fun x y ↦ x.2 ≤ y.2

/-- An entry of the heap as a hub. -/
def hubOf (x : ℕ ×ₗ ℕ) : NodeId × ℕ := (⟨UInt64.ofNat (ofLex x).2⟩, (ofLex x).1)

theorem hubOf_toLex (n : ℕ) (node : NodeId) : hubOf (toLex (n, node.id.toNat)) = (node, n) := by
  simp [hubOf]

theorem hubHeap_spec {deg : NodeId → ℕ} (hdeg : ∀ node, s.degreeIn direction node = .ok (deg node))
    (hlimit : 16 * limit < 2 ^ 63) (candidates : List NodeId) :
    ∃ heap dropped, s.hubHeap limit direction candidates = .ok heap ∧
      Selected limit (candidates.map fun node ↦ toLex (deg node, node.id.toNat)) heap dropped := by
  obtain ⟨heap, hheap, dropped, hsel⟩ := Except.foldlM_exists
    (f := fun heap node ↦ do
      return offer limit heap (toLex (← s.degreeIn direction node, node.id.toNat)))
    (fun done heap ↦ ∃ dropped, Selected limit
      (done.map fun node ↦ toLex (deg node, node.id.toNat)) heap dropped)
    (l := candidates) (s := []) ⟨[], .nil, Nat.zero_le _, fun h ↦ absurd rfl h, by simp⟩ (by
      rintro done node heap - ⟨dropped, hsel⟩
      obtain ⟨dropped', hsel'⟩ := hsel.offer (toLex (deg node, node.id.toNat))
      refine ⟨_, by rw [hdeg]; rfl, dropped', ?_⟩
      rwa [List.map_append])
  refine ⟨heap, dropped, ?_, hsel⟩
  rw [hubHeap, Except.guardOr, if_pos hlimit, Except.ok_bind]
  exact hheap

/-- **What the operation returns**, when it succeeds. -/
theorem topHubsIn_drained (hs : s.EdgesOk) (hlabels : s.LabelsOk) (hl : s.LabelFits labelFilter)
    (hpos : limit ≠ 0) (hlimit : 16 * limit < 2 ^ 63) :
    ∃ hubs all rest, s.topHubsIn limit direction labelFilter = .ok hubs ∧
      Drained limit all hubs rest ∧ (all.map Prod.fst).Nodup ∧
      ∀ x, x ∈ all ↔ s.Candidate labelFilter x.1 ∧ s.Degree direction x.1 x.2 := by
  obtain ⟨candidates, hcands, hnodup, hmem⟩ := hubCandidates_spec hlabels hl
  choose deg hcall hdeg using hs.degreeIn direction
  obtain ⟨heap, dropped, hheap, hsel⟩ := hubHeap_spec hcall hlimit candidates
  set sorted := heap.mergeSort fun a b ↦ decide (b ≤ a) with hsorted
  have hperm : sorted.Perm heap := List.mergeSort_perm _ _
  have hdesc : sorted.Pairwise fun a b ↦ b ≤ a := by
    refine (List.pairwise_mergeSort (fun a b c ↦ ?_) (fun a b ↦ ?_) heap).imp fun h ↦
      of_decide_eq_true h
    · simpa using fun h h' ↦ le_trans h' h
    · simpa using le_total b a
  have hhubs : ((sorted.map hubOf).reverse).Perm (heap.map hubOf) :=
    (List.reverse_perm _).trans (hperm.map _)
  refine ⟨(sorted.map hubOf).reverse, candidates.map fun node ↦ (node, deg node),
    dropped.map hubOf, ?_, ⟨?_, ?_, fun hne ↦ ?_, ?_, ?_⟩, ?_, ?_⟩
  · rw [topHubsIn, if_neg hpos, hcands, Except.ok_bind, hheap]
    rfl
  · have hmap := hsel.perm.map hubOf
    rw [List.map_map, List.map_append] at hmap
    have hcomp : hubOf ∘ (fun node ↦ toLex (deg node, node.id.toNat)) =
        fun node ↦ (node, deg node) := funext fun node ↦ hubOf_toLex (deg node) node
    rw [hcomp] at hmap
    exact hmap.trans (hhubs.symm.append_right _)
  · rw [hhubs.length_eq, List.length_map]
    exact hsel.length_le
  · rw [hhubs.length_eq, List.length_map]
    exact hsel.full fun h ↦ hne (by rw [h, List.map_nil])
  · intro x hx y hy
    obtain ⟨a, ha, rfl⟩ := List.mem_map.mp (hhubs.mem_iff.mp hx)
    obtain ⟨b, hb, rfl⟩ := List.mem_map.mp hy
    exact hsel.best a ha b hb
  · rw [List.pairwise_reverse, List.pairwise_map]
    exact hdesc.imp fun h ↦ fst_le_of_le h
  · rw [List.map_map]
    exact (List.map_id candidates).symm ▸ hnodup
  · rintro ⟨node, n⟩
    simp only [List.mem_map, Prod.mk.injEq, ← hmem]
    constructor
    · rintro ⟨node', h, rfl, rfl⟩
      exact ⟨h, hdeg _⟩
    · rintro ⟨h, hn⟩
      exact ⟨node, h, rfl, (hdeg node).unique hn⟩

namespace Drained

variable {all hubs rest : List (NodeId × ℕ)}

theorem topHubs (h : Drained limit all hubs rest) (hnodup : (all.map Prod.fst).Nodup)
    (hmem : ∀ x, x ∈ all ↔ s.Candidate labelFilter x.1 ∧ s.Degree direction x.1 x.2)
    (hdegree : ∀ node, ∃ n, s.Degree direction node n)
    (hsorted : hubs.Pairwise fun x y ↦ y.2 ≤ x.2) :
    s.TopHubs limit direction labelFilter hubs := by
  have hsub : ∀ x ∈ hubs, x ∈ all := fun x hx ↦
    h.perm.mem_iff.mpr (List.mem_append_left _ hx)
  refine ⟨?_, fun x hx ↦ (hmem x).mp (hsub x hx), fun ids hids hids' ↦ ?_, ?_, hsorted⟩
  · have := (h.perm.map Prod.fst).nodup_iff.mp hnodup
    rw [List.map_append] at this
    exact (List.nodup_append.mp this).1
  · have hlen : ids.length = all.length := by
      rw [← List.length_map Prod.fst]
      refine ((List.perm_ext_iff_of_nodup hids hnodup).mpr fun node ↦ ?_).length_eq
      rw [hids', List.mem_map]
      constructor
      · intro hnode
        obtain ⟨n, hn⟩ := hdegree node
        exact ⟨(node, n), (hmem _).mpr ⟨hnode, hn⟩, rfl⟩
      · rintro ⟨x, hx, rfl⟩
        exact ((hmem x).mp hx).1
    have hsplit := h.perm.length_eq
    rw [List.length_append] at hsplit
    rw [hlen]
    rcases eq_or_ne rest [] with rfl | hne
    · have := h.length_le
      simp only [List.length_nil] at hsplit
      omega
    · have := h.full hne
      omega
  · intro node n hnode hn hout x hx
    rcases List.mem_append.mp (h.perm.mem_iff.mp ((hmem (node, n)).mpr ⟨hnode, hn⟩)) with hin | hin
    · exact absurd (List.mem_map_of_mem hin) hout
    · exact h.best x hx _ hin

theorem sorted_iff (h : Drained limit all hubs rest) (hnodup : (all.map Prod.fst).Nodup)
    (hmem : ∀ x, x ∈ all ↔ s.Candidate labelFilter x.1 ∧ s.Degree direction x.1 x.2)
    (hdegree : ∀ node, ∃ n, s.Degree direction node n) :
    (hubs.Pairwise fun x y ↦ y.2 ≤ x.2) ↔ s.TopTied limit direction labelFilter := by
  have hsub : ∀ x ∈ hubs, x ∈ all := fun x hx ↦
    h.perm.mem_iff.mpr (List.mem_append_left _ hx)
  have hhubs : (hubs.map Prod.fst).Nodup := by
    have := (h.perm.map Prod.fst).nodup_iff.mp hnodup
    rw [List.map_append] at this
    exact (List.nodup_append.mp this).1
  constructor
  · intro hdesc
    -- ascending and descending: all of one degree
    have heq : ∀ x ∈ hubs, ∀ y ∈ hubs, x.2 = y.2 := by
      have hpair : hubs.Pairwise fun x y ↦ x.2 = y.2 :=
        (List.pairwise_and_iff.mpr ⟨h.ascending, hdesc⟩).imp fun h ↦ le_antisymm h.1 h.2
      intro x hx y hy
      exact List.Pairwise.forall_of_forall_of_flip (R := fun x y ↦ x.2 = y.2) (fun _ _ ↦ rfl) hpair
        (hpair.imp fun h ↦ h.symm) hx hy
    rcases eq_or_ne rest [] with rfl | hne
    · refine .inr fun node other m n hnode hother hm hn ↦ ?_
      have hin : ∀ x, x ∈ all → x ∈ hubs := fun x hx ↦ by
        simpa using h.perm.mem_iff.mp hx
      exact heq _ (hin _ ((hmem (node, m)).mpr ⟨hnode, hm⟩)) _
        (hin _ ((hmem (other, n)).mpr ⟨hother, hn⟩))
    · refine .inl ⟨hubs.map Prod.fst, hhubs, by rw [List.length_map, h.full hne], ?_⟩
      intro node hnode
      obtain ⟨x, hx, rfl⟩ := List.mem_map.mp hnode
      obtain ⟨hcand, hdeg⟩ := (hmem x).mp (hsub x hx)
      refine ⟨hcand, fun other m n hother hm hn ↦ ?_⟩
      obtain rfl := hdeg.unique hn
      rcases List.mem_append.mp (h.perm.mem_iff.mp ((hmem (other, m)).mpr ⟨hother, hm⟩))
        with hin | hin
      · exact (heq _ hin x hx).le
      · exact h.best x hx _ hin
  · intro htied
    refine List.pairwise_of_forall_mem_list fun x hx y hy ↦ ?_
    obtain ⟨hcx, hdx⟩ := (hmem x).mp (hsub x hx)
    obtain ⟨hcy, hdy⟩ := (hmem y).mp (hsub y hy)
    rcases htied with ⟨tied, htnodup, htlen, htied⟩ | hsame
    · by_contra hlt
      -- the tied candidates would all have to be returned, and `x` besides them
      have hall : ∀ node ∈ tied, node ∈ (hubs.map Prod.fst).erase x.1 := by
        intro node hnode
        obtain ⟨hcand, hmax⟩ := htied node hnode
        obtain ⟨n, hn⟩ := hdegree node
        have hle : y.2 ≤ n := hmax y.1 y.2 n hcy hdy hn
        rw [hhubs.mem_erase_iff]
        refine ⟨?_, ?_⟩
        · rintro rfl
          obtain rfl := hdx.unique hn
          exact hlt hle
        · rcases List.mem_append.mp (h.perm.mem_iff.mp ((hmem (node, n)).mpr ⟨hcand, hn⟩))
            with hin | hin
          · exact List.mem_map_of_mem hin
          · exact absurd (hle.trans (h.best x hx _ hin)) hlt
      have hle := (htnodup.subperm hall).length_le
      have hmemx : x.1 ∈ hubs.map Prod.fst := List.mem_map_of_mem hx
      have hposx := List.length_pos_of_mem hmemx
      rw [List.length_erase_of_mem hmemx, List.length_map] at hle
      rw [List.length_map] at hposx
      have := h.length_le
      omega
    · exact (hsame y.1 x.1 _ _ hcy hcx hdy hdx).le

end Drained

/-- **Top hubs.** In a store whose rows are those of its edges, the operation returns what is asked
for exactly when the label can be looked up, the heap can be allocated and the degrees are tied. -/
theorem topHubsIn_iff (hs : s.EdgesOk) (hlabels : s.LabelsOk) :
    (∃ hubs, s.topHubsIn limit direction labelFilter = .ok hubs ∧
      s.TopHubs limit direction labelFilter hubs) ↔
    limit = 0 ∨ (s.LabelFits labelFilter ∧ 16 * limit < 2 ^ 63 ∧
      s.TopTied limit direction labelFilter) := by
  rcases eq_or_ne limit 0 with rfl | hpos
  · refine iff_of_true ⟨[], rfl, .nil, by simp, by simp, by simp, .nil⟩ (.inl rfl)
  have hdegree : ∀ node, ∃ n, s.Degree direction node n := fun node ↦ by
    obtain ⟨n, -, hn⟩ := hs.degreeIn direction node
    exact ⟨n, hn⟩
  constructor
  · rintro ⟨hubs, hop, htop⟩
    have hl : s.LabelFits labelFilter := by
      by_contra hl
      obtain ⟨e, he⟩ := not_labelFits_error hl
      rw [topHubsIn, if_neg hpos, he] at hop
      cases hop
    have hlimit : 16 * limit < 2 ^ 63 := by
      by_contra hlimit
      obtain ⟨candidates, hcands, -⟩ := hubCandidates_spec hlabels hl
      rw [topHubsIn, if_neg hpos, hcands, Except.ok_bind, hubHeap, Except.guardOr,
        if_neg hlimit] at hop
      cases hop
    obtain ⟨hubs', all, rest, hop', hdrained, hnodup, hmem⟩ :=
      topHubsIn_drained hs hlabels hl hpos hlimit
    obtain rfl := Except.ok.inj (hop.symm.trans hop')
    exact .inr ⟨hl, hlimit, (hdrained.sorted_iff hnodup hmem hdegree).mp htop.sorted⟩
  · rintro (hzero | ⟨hl, hlimit, htied⟩)
    · exact absurd hzero hpos
    · obtain ⟨hubs, all, rest, hop, hdrained, hnodup, hmem⟩ :=
        topHubsIn_drained hs hlabels hl hpos hlimit
      exact ⟨hubs, hop, hdrained.topHubs hnodup hmem hdegree
        ((hdrained.sorted_iff hnodup hmem hdegree).mpr htied)⟩

end GraphStore

namespace GraphRun

open Graph GraphStore

/-- **Top hubs over runs.** In every state that a run reaches whose edge types fit their length
field, the operation returns what is asked for exactly when the label can be looked up, the heap can
be allocated and the degrees are tied. -/
theorem topHubs_iff_of_run (txs : List (List GraphOp))
    (hshort : ∀ ops ∈ txs, ∀ op ∈ ops, op.ShortEdges) (limit : ℕ) (direction : Direction)
    (labelFilter : Option String) :
    (∃ hubs, (run txs).store.topHubsIn limit direction labelFilter = .ok hubs ∧
      (run txs).store.TopHubs limit direction labelFilter hubs) ↔
    limit = 0 ∨ ((run txs).store.LabelFits labelFilter ∧ 16 * limit < 2 ^ 63 ∧
      (run txs).store.TopTied limit direction labelFilter) :=
  topHubsIn_iff (ok_run hshort).consistent.edges (ok_run hshort).consistent.labels

/-- Two people, one of whom knows the other. -/
def oneSided : List (List GraphOp) :=
  [[.createNodesBulk [("Person", ∅), ("Person", ∅)], .createEdge ⟨1⟩ "KNOWS" ⟨2⟩ ∅]]

theorem topHubs_oneSided :
    (∃ hubs, (run oneSided).store.topHubsIn 1 .out (some "Person") = .ok hubs ∧
      (run oneSided).store.TopHubs 1 .out (some "Person") hubs) ↔
    1 = 0 ∨ ((run oneSided).store.LabelFits (some "Person") ∧ 16 * 1 < 2 ^ 63 ∧
      (run oneSided).store.TopTied 1 .out (some "Person")) := by
  refine topHubs_iff_of_run _ ?_ _ _ _
  have hknows : ShortType "KNOWS" := by decide +kernel
  simp [oneSided, GraphOp.ShortEdges, hknows]

/-- The one nobody knows comes before the one who is known. -/
theorem not_topHubs_oneSided : ¬∀ (txs : List (List GraphOp)) (limit : ℕ) (direction : Direction)
    (labelFilter : Option String), ∃ hubs,
      (run txs).store.topHubsIn limit direction labelFilter = .ok hubs ∧
        (run txs).store.TopHubs limit direction labelFilter hubs := by
  intro h
  obtain ⟨hubs, hop, htop⟩ := h oneSided 2 .in none
  have hcands : (run oneSided).store.hubCandidates none = .ok [⟨1⟩, ⟨2⟩] := rfl
  have hheap : (run oneSided).store.hubHeap 2 .in [⟨1⟩, ⟨2⟩] =
      .ok [toLex (1, 2), toLex (0, 1)] := rfl
  have hsort : [toLex (1, 2), toLex (0, 1)].mergeSort (fun a b ↦ decide (b ≤ a)) =
      [toLex (1, 2), toLex (0, 1)] := List.mergeSort_of_pairwise (by decide)
  have hresult : (run oneSided).store.topHubsIn 2 .in none = .ok [(⟨1⟩, 0), (⟨2⟩, 1)] := by
    rw [topHubsIn, if_neg (by decide), hcands, Except.ok_bind, hheap, Except.ok_bind, hsort]
    rfl
  obtain rfl := Except.ok.inj (hresult.symm.trans hop)
  have hsorted := htop.sorted
  simp at hsorted

end GraphRun
