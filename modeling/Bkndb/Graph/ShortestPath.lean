import Bkndb.Graph.Traversal

/-!
# Shortest paths

The unweighted path search over one read transaction (`graph/traversal/mod.rs`). The search is
breadth first, stops when the target is discovered, and keeps for every node found the node and the
edge it was found by; the path is read back from the target along these parents.

## What is proved

`ShortestPath` says that the result is `None` if the start does not exist or no path leads to the
target, and otherwise a path along existing edges of admitted types, each step with the type of its
edge, with as few edges as any. A path from a node to itself has no steps.

## The proof

The search stops in the middle of a scan when it meets the target, so the state of the loop is that
of a search with part of the successors added (`TracksPath`). At that moment the entries have the
depths of a breadth-first search, and the parents lead back (`LeadsBack`).
-/

/-- A step of a path: a node, and the edge that leads to it. -/
structure PathStep where
  /-- The node. -/
  node : NodeId
  /-- The edge, but for the start. -/
  viaEdge : Option EdgeId
  /-- The type of the edge. -/
  edgeType : Option String
  deriving DecidableEq, Repr

/-- A path from its start. -/
structure PathResult where
  /-- The steps, the start first. -/
  steps : List PathStep
  deriving DecidableEq, Repr

/-- The node and the edge by which each node was found. -/
abbrev ParentMap := AList fun _ : NodeId ↦ NodeId × EdgeId × String

namespace GraphStore

open Graph

/-! ## Neighbours -/

/-- Whether a list of types has a type; no list has every type. -/
def admits (edgeTypes : Option (List String)) (t : String) : Bool :=
  match edgeTypes with
  | some types => types.contains t
  | none => true

/-- The neighbours of a node in one table, through edges of the types given. -/
def neighborsThrough (table : OrdMap Bytes Unit) (node : NodeId)
    (edgeTypes : Option (List String)) : Except BknError (List (NodeId × EdgeId × String)) := do
  let all ← neighborsAnyIn table node
  return (all.filter fun row ↦ admits edgeTypes row.1).map fun row ↦ (row.2.1, row.2.2, row.1)

/-- The neighbours of a node with the edges that lead to them. -/
def neighborsForPath (s : GraphStore) (node : NodeId) (direction : Direction)
    (edgeTypes : Option (List String)) : Except BknError (List (NodeId × EdgeId × String)) :=
  match direction with
  | .out => neighborsThrough s.adjOut node edgeTypes
  | .in => neighborsThrough s.adjIn node edgeTypes
  | .both => do
    let out ← neighborsThrough s.adjOut node edgeTypes
    let incoming ← neighborsThrough s.adjIn node edgeTypes
    return out ++ incoming

/-! ## The search -/

/-- What the search keeps. -/
structure PathSearch where
  visited : List NodeId
  parents : ParentMap
  queue : List NodeId

/-- The neighbours of the current node one after the other, up to the target; whether the target was
among them. -/
def scanNeighbors (target current : NodeId) :
    List (NodeId × EdgeId × String) → PathSearch → PathSearch × Bool
  | [], st => (st, false)
  | (next, edge, edgeType) :: rest, st =>
    if next ∈ st.visited then scanNeighbors target current rest st
    else
      let visited := next :: st.visited
      let parents := st.parents.insert next (current, edge, edgeType)
      if next = target then ({ st with visited, parents }, true)
      else scanNeighbors target current rest ⟨visited, parents, st.queue ++ [next]⟩

/-- The search from the queue, with a bound on its iterations. -/
def searchLoop (s : GraphStore) (target : NodeId) (direction : Direction)
    (edgeTypes : Option (List String)) : ℕ → PathSearch → Except BknError (ParentMap × Bool)
  | 0, st => .ok (st.parents, false)
  | fuel + 1, st =>
    match st.queue with
    | [] => .ok (st.parents, false)
    | current :: queue => do
      let neighbors ← s.neighborsForPath current direction edgeTypes
      let (st, found) := scanNeighbors target current neighbors { st with queue }
      if found then return (st.parents, true)
      else s.searchLoop target direction edgeTypes fuel st

/-- From a node back to the start. A walk longer than the map never ends. -/
def walkParents (parents : ParentMap) (start : NodeId) (missing : String) :
    ℕ → NodeId → List PathStep → Except BknError (List PathStep)
  | 0, _, _ => .error (.panic "the walk does not end")
  | fuel + 1, curr, steps =>
    if curr = start then .ok (steps ++ [(⟨start, none, none⟩ : PathStep)]).reverse
    else
      match parents.lookup curr with
      | none => .error (.panic missing)
      | some (prev, edge, edgeType) =>
        walkParents parents start missing fuel prev (steps ++ [⟨curr, some edge, some edgeType⟩])

/-- A path with the fewest edges, if there is a path. -/
def findShortestPathIn (s : GraphStore) (start target : NodeId) (direction : Direction)
    (edgeTypes : Option (List String)) : Except BknError (Option PathResult) := do
  if start = target then
    if (s.getNodeIn start).isNone then return none
    return some ⟨[⟨start, none, none⟩]⟩
  let (parents, found) ← s.searchLoop target direction edgeTypes
    (s.adjOut.size + s.adjIn.size + 1) ⟨[start], ∅, [start]⟩
  if !found then return none
  let steps ← walkParents parents start "parent exists" (parents.keys.length + 1) target []
  return some ⟨steps⟩

/-! ## Paths -/

/-- An existing edge with its type, of those admitted, leads from one node to another. -/
def TypedHop (s : GraphStore) (direction : Direction) (edgeTypes : Option (List String))
    (a : NodeId) (l : EdgeId × String) (b : NodeId) : Prop :=
  ∃ r, s.getEdgeIn l.1 = some r ∧ r.edgeType = l.2 ∧ Admits edgeTypes l.2 ∧ Joins r direction a b

/-- The steps of a walk. -/
def pathSteps (start : NodeId) (steps : List ((EdgeId × String) × NodeId)) : List PathStep :=
  ⟨start, none, none⟩ :: steps.map fun l ↦ ⟨l.2, some l.1.1, some l.1.2⟩

open Search

/-- The steps lead from `start` to `target` along existing edges that are admitted, each with its
type. -/
def IsPath (s : GraphStore) (start target : NodeId) (direction : Direction)
    (edgeTypes : Option (List String)) (path : PathResult) : Prop :=
  ∃ steps, Walk (s.TypedHop direction edgeTypes) start steps target ∧
    path.steps = pathSteps start steps

variable {s : GraphStore} {table : OrdMap Bytes Unit} {node start target : NodeId} {e : EdgeId}
  {direction : Direction} {edgeTypes : Option (List String)}

theorem admits_iff {t : String} : admits edgeTypes t = true ↔ Admits edgeTypes t := by
  cases edgeTypes <;> simp [admits, Admits]

theorem RowsOf.neighborsThrough {first second : EdgeRecord → NodeId}
    (hs : s.RowsOf table first second) (node : NodeId) (edgeTypes : Option (List String)) :
    ∃ l, neighborsThrough table node edgeTypes = .ok l ∧ ∀ other e t, (other, e, t) ∈ l ↔
      ∃ r, s.getEdgeIn e = some r ∧ r.edgeType = t ∧ Admits edgeTypes t ∧ first r = node ∧
        second r = other := by
  obtain ⟨l, hl, -, hmem⟩ := hs.neighborsAnyIn node
  refine ⟨_, by rw [GraphStore.neighborsThrough, hl]; rfl, fun other e t ↦ ?_⟩
  constructor
  · intro h
    obtain ⟨⟨t', other', e'⟩, hrow, heq⟩ := List.mem_map.mp h
    simp only [Prod.mk.injEq] at heq
    obtain ⟨rfl, rfl, rfl⟩ := heq
    obtain ⟨hrow, hadm⟩ := List.mem_filter.mp hrow
    obtain ⟨r, hr, hfirst, htype, hsecond⟩ := (hmem _ _ _).mp hrow
    exact ⟨r, hr, htype, admits_iff.mp hadm, hfirst, hsecond⟩
  · rintro ⟨r, hr, htype, hadm, hfirst, hsecond⟩
    exact List.mem_map.mpr ⟨(t, other, e), List.mem_filter.mpr
      ⟨(hmem _ _ _).mpr ⟨r, hr, hfirst, htype, hsecond⟩, admits_iff.mpr hadm⟩, rfl⟩

/-- **The neighbours of a path search** are the ends of the edges that are followed. -/
theorem EdgesOk.neighborsForPath (hs : s.EdgesOk) (node : NodeId) (direction : Direction)
    (edgeTypes : Option (List String)) :
    ∃ l, s.neighborsForPath node direction edgeTypes = .ok l ∧
      ∀ other label, (other, label) ∈ l ↔ s.TypedHop direction edgeTypes node label other := by
  obtain ⟨out, hout, hmemOut⟩ := hs.rowsOut.neighborsThrough node edgeTypes
  obtain ⟨incoming, hin, hmemIn⟩ := hs.rowsIn.neighborsThrough node edgeTypes
  cases direction with
  | out => exact ⟨out, hout, fun other label ↦ hmemOut other label.1 label.2⟩
  | «in» => exact ⟨incoming, hin, fun other label ↦ hmemIn other label.1 label.2⟩
  | both =>
    refine ⟨out ++ incoming, ?_, fun other label ↦ ?_⟩
    · rw [GraphStore.neighborsForPath, hout, Except.ok_bind, hin]
      rfl
    · obtain ⟨e, t⟩ := label
      rw [List.mem_append, hmemOut, hmemIn]
      constructor
      · rintro (⟨r, hr, htype, hadm, hends⟩ | ⟨r, hr, htype, hadm, hends⟩)
        · exact ⟨r, hr, htype, hadm, .inl hends⟩
        · exact ⟨r, hr, htype, hadm, .inr hends⟩
      · rintro ⟨r, hr, htype, hadm, hends | hends⟩
        · exact .inl ⟨r, hr, htype, hadm, hends⟩
        · exact .inr ⟨r, hr, htype, hadm, hends⟩

theorem TypedHop.hop {a b : NodeId} {l : EdgeId × String}
    (h : s.TypedHop direction edgeTypes a l b) : s.Hop direction edgeTypes a l.1 b := by
  obtain ⟨r, hr, htype, hadm, hjoins⟩ := h
  exact ⟨r, hr, htype ▸ hadm, hjoins⟩

/-- The number of entries of a search, in a store whose rows are those of its edges. -/
theorem EdgesOk.length_grown_le (hs : s.EdgesOk) {found : List (Found NodeId (EdgeId × String))}
    (h : Grown (s.TypedHop direction edgeTypes) start found) :
    found.length ≤ s.adjOut.size + s.adjIn.size + 1 := by
  have hle := h.length_le fun _ _ _ hE ↦ (hs.reads_iff.mpr hE.hop).mem_rowEnds
  have := s.length_rowEnds_le
  omega

/-! ## The loop as a search -/

/-- The state of the loop is that of a search. -/
structure TracksPath (found pending : List (Found NodeId (EdgeId × String))) (st : PathSearch) :
    Prop where
  visited : ∀ c, c ∈ st.visited ↔ c ∈ found.map Found.node
  parents : ∀ x ∈ found, st.parents.lookup x.node = x.via
  queue : st.queue = pending.map Found.node

theorem TracksPath.insert {found pending : List (Found NodeId (EdgeId × String))} {st : PathSearch}
    (h : TracksPath found pending st) (p : Found NodeId (EdgeId × String)) {next : NodeId}
    (l : EdgeId × String) (hnew : next ∉ st.visited) :
    TracksPath (found ++ [child p l next]) (pending ++ [child p l next])
      ⟨next :: st.visited, st.parents.insert next (p.node, l), st.queue ++ [next]⟩ := by
  refine ⟨fun c ↦ by simp [h.visited, child, or_comm], fun x hx ↦ ?_, by simp [h.queue, child]⟩
  rcases List.mem_append.mp hx with hold | hx
  · rw [AList.lookup_insert_ne, h.parents x hold]
    rintro rfl
    exact hnew ((h.visited _).mpr (List.mem_map_of_mem hold))
  · obtain rfl := List.mem_singleton.mp hx
    exact AList.lookup_insert _

/-- The parents lead from the target back to the start, along a walk of a length. -/
def LeadsBack (s : GraphStore) (direction : Direction) (edgeTypes : Option (List String))
    (start target : NodeId) (parents : ParentMap) (n : ℕ) : Prop :=
  ∃ steps, Traces (fun c ↦ parents.lookup c) start target steps ∧
    Walk (s.TypedHop direction edgeTypes) start steps target ∧ steps.length = n

/-- The scan of the neighbours of `p` ends with all the new ones queued, or at the target. -/
theorem scanNeighbors_spec {found pending : List (Found NodeId (EdgeId × String))}
    {st : PathSearch} {p : Found NodeId (EdgeId × String)}
    {neighbors : List (NodeId × EdgeId × String)}
    (hgrown : Grown (s.TypedHop direction edgeTypes) start found) (hp : p ∈ found)
    (hdepth : ∀ x ∈ found, x.depth ≤ p.depth + 1) (ht : TracksPath found pending st)
    (hedges : ∀ e ∈ neighbors, s.TypedHop direction edgeTypes p.node e.2 e.1)
    (htarget : target ∉ st.visited) :
    (∃ st', scanNeighbors target p.node neighbors st = (st', false) ∧ target ∉ st'.visited ∧
      TracksPath (found ++ fresh p st.visited neighbors) (pending ++ fresh p st.visited neighbors)
        st') ∨
    ∃ st', scanNeighbors target p.node neighbors st = (st', true) ∧
      s.LeadsBack direction edgeTypes start target st'.parents (p.depth + 1) := by
  induction neighbors generalizing found pending st with
  | nil => exact .inl ⟨st, rfl, htarget, by simpa [fresh] using ht⟩
  | cons neighbor neighbors ih =>
    obtain ⟨next, e, t⟩ := neighbor
    rw [List.forall_mem_cons] at hedges
    rw [scanNeighbors, fresh]
    split_ifs with hseen heq
    · exact ih hgrown hp hdepth ht hedges.2 htarget
    · -- the target, found from `p`
      subst heq
      have hgrown' : Grown (s.TypedHop direction edgeTypes) start (found ++ [child p (e, t) next]) :=
        .child hgrown hp hedges.1 (fun hc ↦ hseen ((ht.visited next).mpr hc)) hdepth
      obtain ⟨steps, htraces, hwalk, hlen⟩ := @Grown.traces _ _ _ _ _ hgrown'
        (fun c ↦ (st.parents.insert next (p.node, e, t)).lookup c)
        (ht.insert p (e, t) hseen).parents _ (List.mem_append_right _ (List.mem_singleton_self _))
      exact .inr ⟨_, rfl, steps, htraces, hwalk, hlen⟩
    · have hgrown' : Grown (s.TypedHop direction edgeTypes) start (found ++ [child p (e, t) next]) :=
        .child hgrown hp hedges.1 (fun hc ↦ hseen ((ht.visited next).mpr hc)) hdepth
      have hrest := @ih _ (pending ++ [child p (e, t) next]) _ hgrown' (List.mem_append_left _ hp)
        (fun x hx ↦ by
          rcases List.mem_append.mp hx with hx | hx
          · exact hdepth x hx
          · obtain rfl := List.mem_singleton.mp hx
            exact le_rfl) (ht.insert p (e, t) hseen) hedges.2 (by
          rw [List.mem_cons, not_or]
          exact ⟨Ne.symm heq, htarget⟩)
      rcases hrest with ⟨st', hst', hnot, htracks⟩ | hback
      · refine .inl ⟨st', hst', hnot, ?_⟩
        simpa using htracks
      · exact .inr hback

/-- **The search finds the target along a shortest walk, or there is none.** -/
theorem searchLoop_spec (hs : s.EdgesOk) {done pending : List (Found NodeId (EdgeId × String))}
    {fuel : ℕ} {st : PathSearch}
    (h : Searched (s.TypedHop direction edgeTypes) (fun _ ↦ True) start done pending)
    (ht : TracksPath (done ++ pending) pending st) (htarget : target ∉ st.visited)
    (hfuel : s.adjOut.size + s.adjIn.size + 1 ≤ fuel + done.length) :
    ∃ parents found, s.searchLoop target direction edgeTypes fuel st = .ok (parents, found) ∧
      if found = true then ∃ n, s.LeadsBack direction edgeTypes start target parents n ∧
        ∀ steps, Walk (s.TypedHop direction edgeTypes) start steps target → n ≤ steps.length
      else ∀ steps, ¬Walk (s.TypedHop direction edgeTypes) start steps target := by
  have hnone : ∀ done, Searched (s.TypedHop direction edgeTypes) (fun _ ↦ True) start done [] →
      target ∉ done.map Found.node →
        ∀ steps, ¬Walk (s.TypedHop direction edgeTypes) start steps target := by
    intro done h hnot steps hwalk
    obtain ⟨x, hx, rfl⟩ := h.mem_iff.mpr ⟨steps, hwalk, fun _ _ ↦ trivial⟩
    exact hnot (List.mem_map_of_mem hx)
  induction fuel generalizing done pending st with
  | zero =>
    have hle := hs.length_grown_le h.grown
    rw [List.length_append] at hle
    obtain rfl : pending = [] := List.length_eq_zero_iff.mp (by omega)
    rw [List.append_nil] at ht
    exact ⟨_, _, rfl, hnone done h fun hc ↦ htarget ((ht.visited _).mpr hc)⟩
  | succ fuel ih =>
    rw [searchLoop, ht.queue]
    cases pending with
    | nil =>
      rw [List.append_nil] at ht
      exact ⟨_, _, rfl, hnone done h fun hc ↦ htarget ((ht.visited _).mpr hc)⟩
    | cons p pending =>
      obtain ⟨neighbors, hcall, hmem⟩ := hs.neighborsForPath p.node direction edgeTypes
      have hpop : TracksPath (done ++ p :: pending) pending
          { st with queue := pending.map Found.node } := ⟨ht.visited, ht.parents, rfl⟩
      simp only [List.map_cons, hcall, Except.ok_bind]
      rcases scanNeighbors_spec h.grown (List.mem_append_right _ List.mem_cons_self)
        (fun x hx ↦ h.frontier x hx p List.mem_cons_self) hpop
        (fun e he ↦ (hmem e.1 e.2).mp he) htarget with ⟨st', hst', hnot, htracks⟩ | ⟨st', hst', hback⟩
      · rw [hst']
        refine ih (h.expand trivial ht.visited hmem) ?_ hnot ?_
        · simpa using htracks
        · rw [List.length_append, List.length_singleton]
          omega
      · rw [hst']
        refine ⟨_, _, rfl, p.depth + 1, hback, fun steps hwalk ↦ ?_⟩
        -- a shorter walk would have led to the target before
        by_contra hlt
        obtain ⟨x, hx, rfl, -⟩ := h.mem_of_walk hwalk (fun _ _ ↦ trivial) fun y hy ↦ by
          have hsorted := (List.pairwise_append.mp h.grown.sorted).2.1
          rcases List.mem_cons.mp hy with rfl | hy
          · omega
          · have := (List.pairwise_cons.mp hsorted).1 y hy
            omega
        exact htarget ((ht.visited _).mpr (List.mem_map_of_mem hx))

/-! ## The way back

The walk over the parents ends, because every parent is nearer to the start, and a missing parent
cannot be met. -/

/-- **The walk over the parents ends and misses none**, when they lead back to the start. -/
theorem walkParents_eq {parents : ParentMap} {steps : List ((EdgeId × String) × NodeId)}
    (h : Traces (fun c ↦ parents.lookup c) start target steps) (missing : String) {fuel : ℕ}
    (hfuel : steps.length < fuel) (acc : List PathStep) :
    walkParents parents start missing fuel target acc = .ok (pathSteps start steps ++ acc.reverse) := by
  induction fuel generalizing target steps acc with
  | zero => exact absurd hfuel (Nat.not_lt_zero _)
  | succ fuel ih =>
    rw [walkParents]
    cases h with
    | start =>
      rw [if_pos rfl, List.reverse_append]
      rfl
    | @step p c l steps hne hp hrest =>
      rw [if_neg hne, hp]
      rw [List.length_append, List.length_singleton] at hfuel
      simp only []
      rw [ih hrest (Nat.lt_of_succ_lt_succ hfuel)]
      simp [pathSteps]

theorem walkParents_of_traces {parents : ParentMap} {steps : List ((EdgeId × String) × NodeId)}
    (h : Traces (fun c ↦ parents.lookup c) start target steps) (missing : String) :
    walkParents parents start missing (parents.keys.length + 1) target [] =
      .ok (pathSteps start steps) := by
  have hle := h.length_le fun b hb ↦ AList.mem_keys.mpr (AList.lookup_isSome.mp hb)
  rw [walkParents_eq h missing (Nat.lt_succ_of_le hle), List.reverse_nil, List.append_nil]

theorem LeadsBack.walkParents {parents : ParentMap} {n : ℕ}
    (h : s.LeadsBack direction edgeTypes start target parents n) (missing : String) :
    ∃ steps, walkParents parents start missing (parents.keys.length + 1) target [] =
        .ok (pathSteps start steps) ∧ steps.length = n ∧
      Walk (s.TypedHop direction edgeTypes) start steps target := by
  obtain ⟨steps, htraces, hwalk, hlen⟩ := h
  exact ⟨steps, walkParents_of_traces htraces missing, hlen, hwalk⟩

/-! ## Shortest paths -/

theorem EndpointsOk.typedHop (h : s.EndpointsOk) {a b : NodeId} {l : EdgeId × String}
    (hop : s.TypedHop direction edgeTypes a l b) :
    (s.getNodeIn a).isSome = true ∧ (s.getNodeIn b).isSome = true := by
  obtain ⟨r, hr, -, -, hjoins⟩ := hop
  obtain ⟨hsrc, hdst⟩ := h l.1 r hr
  cases direction with
  | out =>
    obtain ⟨rfl, rfl⟩ := hjoins
    exact ⟨hsrc, hdst⟩
  | «in» =>
    obtain ⟨rfl, rfl⟩ := hjoins
    exact ⟨hdst, hsrc⟩
  | both =>
    rcases hjoins with ⟨rfl, rfl⟩ | ⟨rfl, rfl⟩
    · exact ⟨hsrc, hdst⟩
    · exact ⟨hdst, hsrc⟩

/-- The result is a path with the fewest edges, if the start exists and there is a path. -/
structure ShortestPath (s : GraphStore) (start target : NodeId) (direction : Direction)
    (edgeTypes : Option (List String)) (result : Option PathResult) : Prop where
  /-- There is a result if the start exists and the target can be reached. -/
  isSome_iff : result.isSome = true ↔ (s.getNodeIn start).isSome = true ∧
    ∃ steps, Walk (s.TypedHop direction edgeTypes) start steps target
  /-- The result is a path. -/
  isPath : ∀ path, result = some path → s.IsPath start target direction edgeTypes path
  /-- No path has fewer edges. -/
  minimal : ∀ path, result = some path → ∀ other, s.IsPath start target direction edgeTypes other →
    path.steps.length ≤ other.steps.length

/-- **Shortest path.** In a store that satisfies the graph invariant the search succeeds, with a
path of the fewest edges if there is a path. -/
theorem findShortestPathIn_spec (hs : s.Consistent) (start target : NodeId)
    (direction : Direction) (edgeTypes : Option (List String)) :
    ∃ result, s.findShortestPathIn start target direction edgeTypes = .ok result ∧
      s.ShortestPath start target direction edgeTypes result := by
  rw [findShortestPathIn]
  split_ifs with heq hmissing
  · refine ⟨none, rfl, ⟨?_, by simp, by simp⟩⟩
    rw [Option.isNone_iff_eq_none] at hmissing
    simp [hmissing]
  · subst heq
    have hexists : (s.getNodeIn start).isSome = true := by
      simpa [Option.isSome_iff_ne_none] using hmissing
    refine ⟨_, rfl, ⟨by simpa [hexists] using ⟨[], .nil⟩, ?_, ?_⟩⟩
    · rintro path heq
      obtain rfl := Option.some.inj heq
      exact ⟨[], .nil, rfl⟩
    · rintro path heq other ⟨steps, -, hsteps⟩
      obtain rfl := Option.some.inj heq
      rw [hsteps]
      simp [pathSteps]
  · have htracks : TracksPath ([] ++ [root start]) [root start] ⟨[start], ∅, [start]⟩ :=
      ⟨by simp [root], by simp [root], rfl⟩
    have htarget : target ∉ [start] := by simpa using Ne.symm heq
    obtain ⟨parents, found, hloop, hfound⟩ := searchLoop_spec hs.edges
      (.init (s.TypedHop direction edgeTypes) (fun _ ↦ True) start) htracks htarget
      (Nat.le_add_right (s.adjOut.size + s.adjIn.size + 1) _)
    rw [hloop, Except.ok_bind]
    cases found with
    | false =>
      refine ⟨none, rfl, ⟨?_, by simp, by simp⟩⟩
      simp only [Option.isSome_none, Bool.false_eq_true, false_iff, not_and, not_exists]
      exact fun _ ↦ hfound
    | true =>
      obtain ⟨n, hback, hmin⟩ := hfound
      obtain ⟨steps, hpath, rfl, hwalk⟩ := hback.walkParents "parent exists"
      refine ⟨some ⟨pathSteps start steps⟩, ?_, ⟨?_, ?_, ?_⟩⟩
      · simp only [Bool.not_true, Bool.false_eq_true, if_false, hpath, Except.ok_bind]
        rfl
      · refine iff_of_true rfl ⟨?_, steps, hwalk⟩
        rcases hwalk.first with rfl | ⟨l, c, hop⟩
        · exact absurd hwalk.eq_of_nil (Ne.symm heq)
        · exact (hs.endpoints.typedHop hop).1
      · rintro path heq
        obtain rfl := Option.some.inj heq
        exact ⟨steps, hwalk, rfl⟩
      · rintro path heq other ⟨steps', hwalk', hsteps'⟩
        obtain rfl := Option.some.inj heq
        rw [hsteps']
        simpa [pathSteps] using hmin steps' hwalk'

end GraphStore

namespace GraphRun

open Graph GraphStore

/-- Three people, the first of whom knows himself and the second. -/
def acquaintances : List (List GraphOp) :=
  [[.createNodesBulk [("Person", ∅), ("Person", ∅), ("Person", ∅)]],
    [.createEdge ⟨1⟩ "KNOWS" ⟨1⟩ ∅, .createEdge ⟨1⟩ "KNOWS" ⟨2⟩ ∅, .createEdge ⟨3⟩ "LIKES" ⟨2⟩ ∅]]

theorem consistent_acquaintances : (run acquaintances).store.Consistent := by
  refine (ok_run ?_).consistent
  have hknows : ShortType "KNOWS" := by decide +kernel
  have hlikes : ShortType "LIKES" := by decide +kernel
  simp [acquaintances, GraphOp.ShortEdges, hknows, hlikes]

/-- The way from the first to the third, against the last edge. -/
theorem shortestPath_acquaintances : ∃ result,
    (run acquaintances).store.findShortestPathIn ⟨1⟩ ⟨3⟩ .both none = .ok result ∧
      (run acquaintances).store.ShortestPath ⟨1⟩ ⟨3⟩ .both none result :=
  findShortestPathIn_spec consistent_acquaintances _ _ _ _

example : (run acquaintances).store.findShortestPathIn ⟨1⟩ ⟨3⟩ .both (some ["KNOWS", "LIKES"]) =
    .ok (some ⟨[⟨⟨1⟩, none, none⟩, ⟨⟨2⟩, some ⟨2⟩, some "KNOWS"⟩, ⟨⟨3⟩, some ⟨3⟩, some "LIKES"⟩]⟩) :=
  rfl

end GraphRun
