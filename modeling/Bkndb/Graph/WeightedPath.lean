import Mathlib.Algebra.Order.Field.Rat
import Mathlib.Data.List.Sort
import Bkndb.Basic.Dijkstra
import Bkndb.Graph.ShortestPath

/-!
# Lowest-cost paths

The weighted path search over one read transaction (`graph/traversal/mod.rs`): Dijkstra's search
with the entries of improved nodes left in the heap. The weight of an edge is read as the source
reads it, and refused as the source refuses it. Costs are exact: they are the sums of the numbers
that the weights stand for, in any ordered monoid without negative elements.

## Costs

The source adds floats. The model adds the numbers that the floats stand for, so what is proved is
about exact sums, and nothing is said about rounding. The order of the heap and the test for stale
entries are those of the source.

## Refusals

A weight that is negative or not finite is refused when the edge is looked at, not before.
`ValidWeights` asks of all edges that could be followed that this does not happen, and then the
search does not fail.
-/

/-- The numbers that weights stand for. -/
structure Weights (W : Type) where
  /-- The number of a weight that is an integer. -/
  ofInt : Int64 → W
  /-- The number of a weight that is a floating-point number. -/
  ofFloat : F64 → W

/-- The numbers themselves, for weights that are not negative. -/
def Weights.rational : Weights ℚ≥0 where
  ofInt i := (i.toInt.toNat : ℕ)
  ofFloat f := (f.unpack.1 : ℕ) * (2 : ℚ≥0) ^ f.unpack.2

/-- A path and its total cost. -/
structure WeightedPath (W : Type) where
  path : PathResult
  cost : W

/-- What the search keeps. The heap is listed in the order its entries are popped. -/
structure WeightedSearch (W : Type) where
  dist : AList fun _ : NodeId ↦ W
  parents : ParentMap
  heap : List (W × NodeId)

namespace GraphStore

open Graph

/-! ## Weights -/

/-- The weight of an edge: its value under the weight property, if that is a number. -/
def edgeWeight (defaultWeight : F64) : Option PropValue → F64
  | some (.int i) => F64.ofInt64 i
  | some (.float f) => f
  | _ => defaultWeight

/-- Not finite, or negative. -/
def invalidWeight (w : F64) : Bool :=
  !(w.isFinite && (w.partialCmp (.ofMagnitude false 0)).any Ordering.isGE)

/-- The number that the weight of an edge stands for. -/
def exactWeight {W : Type} (numbers : Weights W) (defaultWeight : F64) : Option PropValue → W
  | some (.int i) => numbers.ofInt i
  | some (.float f) => numbers.ofFloat f
  | _ => numbers.ofFloat defaultWeight

/-- The value of an edge under the weight property. -/
def weightValue (s : GraphStore) (weightProperty : String) (edge : EdgeId) : Option PropValue :=
  (s.getEdgeIn edge).bind fun e ↦ e.properties.get? weightProperty

section Search

variable {W : Type} [AddCommMonoid W] [LinearOrder W]

/-! ## The heap -/

/-- The order of the entries: by cost, then by node. -/
def entryLE (a b : W × NodeId) : Prop := a.1 < b.1 ∨ a.1 = b.1 ∧ a.2.id.toNat ≤ b.2.id.toNat

instance : DecidableRel (entryLE (W := W)) := fun _ _ ↦ inferInstanceAs (Decidable (_ ∨ _))

/-- Add an entry to the heap. -/
def pushEntry (heap : List (W × NodeId)) (entry : W × NodeId) : List (W × NodeId) :=
  heap.orderedInsert entryLE entry

/-! ## The search -/

/-- A cost is below the lowest one known, infinity if there is none. -/
def improves (dist : AList fun _ : NodeId ↦ W) (node : NodeId) (candidate : W) : Bool :=
  match dist.lookup node with
  | some known => candidate < known
  | none => true

/-- A cost is above the lowest one known, infinity if there is none. -/
def staleEntry (dist : AList fun _ : NodeId ↦ W) (node : NodeId) (d : W) : Bool :=
  match dist.lookup node with
  | some known => known < d
  | none => false

variable (display : F64 → String) (numbers : Weights W)

/-- Look at one neighbour of `node`, which costs `d`. -/
def relaxNeighbor (s : GraphStore) (weightProperty : String) (defaultWeight : F64) (node : NodeId)
    (d : W) (st : WeightedSearch W) (neighbor : NodeId × EdgeId × String) :
    Except BknError (WeightedSearch W) := do
  let (next, edge, edgeType) := neighbor
  let value := s.weightValue weightProperty edge
  let weight := edgeWeight defaultWeight value
  .guardOr (!invalidWeight weight) (.encoding
    s!"edge {edge.id} has invalid weight {display weight} (must be finite and >= 0)")
  let candidate := d + exactWeight numbers defaultWeight value
  if improves st.dist next candidate then
    return ⟨st.dist.insert next candidate, st.parents.insert next (node, edge, edgeType),
      pushEntry st.heap (candidate, next)⟩
  else return st

/-- The search from the heap, with a bound on its iterations. -/
def dijkstraLoop (s : GraphStore) (target : NodeId) (direction : Direction)
    (edgeTypes : Option (List String)) (weightProperty : String) (defaultWeight : F64) :
    ℕ → WeightedSearch W → Except BknError (WeightedSearch W)
  | 0, st => .ok st
  | fuel + 1, st =>
    match st.heap with
    | [] => .ok st
    | (d, node) :: heap =>
      if node = target then .ok { st with heap }
      else if staleEntry st.dist node d then
        s.dijkstraLoop target direction edgeTypes weightProperty defaultWeight fuel { st with heap }
      else do
        let neighbors ← s.neighborsForPath node direction edgeTypes
        let st ← neighbors.foldlM (relaxNeighbor display numbers s weightProperty defaultWeight node d)
          { st with heap }
        s.dijkstraLoop target direction edgeTypes weightProperty defaultWeight fuel st

/-- A path of the lowest cost, if there is a path. Every iteration takes an entry off the heap; each
node is expanded once, and adds no more entries than there are rows. -/
def findWeightedPathIn (s : GraphStore) (start target : NodeId) (direction : Direction)
    (edgeTypes : Option (List String)) (weightProperty : String) (defaultWeight : F64) :
    Except BknError (Option (WeightedPath W)) := do
  .guardOr (!invalidWeight defaultWeight) (.encoding
    s!"default edge weight must be finite and >= 0, got {display defaultWeight}")
  if (s.getNodeIn start).isNone ∨ (s.getNodeIn target).isNone then return none
  let rows := s.adjOut.size + s.adjIn.size
  let st ← s.dijkstraLoop display numbers target direction edgeTypes weightProperty defaultWeight
    ((rows + 1) * rows + 1) ⟨(∅ : AList _).insert start 0, ∅, [(0, start)]⟩
  match st.dist.lookup target with
  | none => return none
  | some cost => do
    let steps ← walkParents st.parents start "every reached node but start has a parent"
      (st.parents.keys.length + 1) target []
    return some ⟨⟨steps⟩, cost⟩

/-! ## The heap in order -/

variable {s : GraphStore} {start target node : NodeId} {direction : Direction}
  {edgeTypes : Option (List String)} {weightProperty : String} {defaultWeight : F64}
  {display} {numbers}

omit [AddCommMonoid W] in
theorem pushEntry_perm (heap : List (W × NodeId)) (entry : W × NodeId) :
    (pushEntry heap entry).Perm (entry :: heap) :=
  List.perm_orderedInsert _ _ _

/-- The entries are in the order of their costs. -/
abbrev Ascending (heap : List (W × NodeId)) : Prop := heap.Pairwise entryLE

omit [AddCommMonoid W] in
theorem entryLE.le {a b : W × NodeId} (h : entryLE a b) : a.1 ≤ b.1 := by
  rcases h with h | h
  · exact h.le
  · exact h.1.le

omit [AddCommMonoid W] in
theorem Ascending.pushEntry {heap : List (W × NodeId)} (h : Ascending heap) (entry : W × NodeId) :
    Ascending (pushEntry heap entry) := by
  have htotal : Std.Total (entryLE (W := W)) := ⟨fun a b ↦ by
    rcases lt_trichotomy a.1 b.1 with hab | hab | hab
    · exact .inl (.inl hab)
    · rcases le_total a.2.id.toNat b.2.id.toNat with hid | hid
      · exact .inl (.inr ⟨hab, hid⟩)
      · exact .inr (.inr ⟨hab.symm, hid⟩)
    · exact .inr (.inl hab)⟩
  have htrans : IsTrans (W × NodeId) entryLE := ⟨fun a b c hab hbc ↦ by
    rcases hab with hab | ⟨hab, hid⟩
    · exact .inl (hab.trans_le (entryLE.le hbc))
    · rcases hbc with hbc | ⟨hbc, hid'⟩
      · exact .inl (hab.trans_lt hbc)
      · exact .inr ⟨hab.trans hbc, hid.trans hid'⟩⟩
  exact List.Pairwise.orderedInsert entry heap h

/-! ## The loop as Dijkstra's search

The state of the loop has the costs and the parents in maps and the heap in a list;
`TracksWeighted` reads off the state of a search with some nodes settled, and looking at one
neighbour is a step of that search. -/

open Search

/-- What an edge costs. -/
def edgeCost (s : GraphStore) (numbers : Weights W) (weightProperty : String) (defaultWeight : F64)
    (l : EdgeId × String) : W :=
  exactWeight numbers defaultWeight (s.weightValue weightProperty l.1)

/-- The weights of the edges that are followed are finite and not negative, and so is the
default. -/
structure ValidWeights (s : GraphStore) (edgeTypes : Option (List String)) (weightProperty : String)
    (defaultWeight : F64) : Prop where
  default : invalidWeight defaultWeight = false
  edge : ∀ e r, s.getEdgeIn e = some r → Admits edgeTypes r.edgeType →
    invalidWeight (edgeWeight defaultWeight (r.properties.get? weightProperty)) = false

/-- The state of the loop is that of a search which has settled some nodes. -/
structure TracksWeighted (s : GraphStore) (numbers : Weights W) (start : NodeId)
    (direction : Direction) (edgeTypes : Option (List String)) (weightProperty : String)
    (defaultWeight : F64) (waived : NodeId → EdgeId × String → NodeId → Prop)
    (settled : List NodeId) (st : WeightedSearch W) : Prop where
  settling : Settling (s.TypedHop direction edgeTypes)
    (s.edgeCost numbers weightProperty defaultWeight) start settled (fun c ↦ st.dist.lookup c)
    (fun c ↦ st.parents.lookup c) st.heap
  relaxed : Relaxed (s.TypedHop direction edgeTypes)
    (s.edgeCost numbers weightProperty defaultWeight) settled (fun c ↦ st.dist.lookup c) waived
  ascending : Ascending st.heap

theorem lookup_insert_eq_update {κ : Type} {V : Type} [DecidableEq κ] (m : AList fun _ : κ ↦ V)
    (k : κ) (v : V) :
    (fun c ↦ (m.insert k v).lookup c) = Function.update (fun c ↦ m.lookup c) k (some v) := by
  funext c
  by_cases hc : c = k
  · subst hc
    rw [AList.lookup_insert, Function.update_self]
  · rw [AList.lookup_insert_ne hc, Function.update_of_ne hc]

omit [AddCommMonoid W] in
theorem improves_iff {dist : AList fun _ : NodeId ↦ W} {candidate : W} :
    improves dist node candidate = true ↔ ∀ d, dist.lookup node = some d → candidate < d := by
  rw [improves]
  cases dist.lookup node <;> simp

omit [AddCommMonoid W] in
theorem staleEntry_iff {dist : AList fun _ : NodeId ↦ W} {d : W} :
    staleEntry dist node d = true ↔ ∃ known, dist.lookup node = some known ∧ known < d := by
  rw [staleEntry]
  cases dist.lookup node <;> simp

theorem ValidWeights.edgeWeight (h : s.ValidWeights edgeTypes weightProperty defaultWeight)
    {a b : NodeId} {l : EdgeId × String} (hop : s.TypedHop direction edgeTypes a l b) :
    invalidWeight (edgeWeight defaultWeight (s.weightValue weightProperty l.1)) = false := by
  obtain ⟨r, hr, htype, hadm, -⟩ := hop
  rw [weightValue, hr]
  exact h.edge l.1 r hr (htype ▸ hadm)

variable {waived Q : NodeId → EdgeId × String → NodeId → Prop} {settled : List NodeId}
  {st : WeightedSearch W} {d : W}

section Relax

variable [CanonicallyOrderedAdd W]

/-- **One neighbour**: the step to it is accounted for, and the settled nodes keep their costs. -/
theorem TracksWeighted.relaxNeighbor (display : F64 → String)
    (h : s.TracksWeighted numbers start direction edgeTypes weightProperty defaultWeight waived
      settled st)
    (hvalid : s.ValidWeights edgeTypes weightProperty defaultWeight) (hnode : node ∈ settled)
    (hd : st.dist.lookup node = some d)
    (hlast : ∀ u ∈ settled, ∀ d', st.dist.lookup u = some d' → d' ≤ d)
    {neighbor : NodeId × EdgeId × String}
    (hop : s.TypedHop direction edgeTypes node neighbor.2 neighbor.1)
    (hwaived : ∀ u l c, waived u l c →
      Q u l c ∨ u = node ∧ l = neighbor.2 ∧ c = neighbor.1) :
    ∃ st', GraphStore.relaxNeighbor display numbers s weightProperty defaultWeight node d st
        neighbor = .ok st' ∧
      s.TracksWeighted numbers start direction edgeTypes weightProperty defaultWeight Q
        settled st' ∧
      (∀ u ∈ settled, st'.dist.lookup u = st.dist.lookup u) ∧
      st'.heap.length ≤ st.heap.length + 1 := by
  obtain ⟨c, l⟩ := neighbor
  have hweight := hvalid.edgeWeight hop
  dsimp only at hop hwaived hweight
  rw [GraphStore.relaxNeighbor]
  simp only [hweight, Except.guardOr, Bool.not_false, if_true, Except.ok_bind]
  have hcost : exactWeight numbers defaultWeight (s.weightValue weightProperty l.1) =
      s.edgeCost numbers weightProperty defaultWeight l := rfl
  rw [hcost]
  split
  · rename_i hbetter
    rw [improves_iff] at hbetter
    have hperm := pushEntry_perm st.heap
      (d + s.edgeCost numbers weightProperty defaultWeight l, c)
    obtain ⟨hnew, hsettling⟩ := h.settling.improve hnode hd hlast hop hbetter hperm
    have hsame : ∀ u ∈ settled, (st.dist.insert c
        (d + s.edgeCost numbers weightProperty defaultWeight l)).lookup u = st.dist.lookup u :=
      fun u hu ↦ AList.lookup_insert_ne (ne_of_mem_of_not_mem hu hnew)
    refine ⟨_, rfl, ⟨?_, h.relaxed.mono hsame (fun c' d' hd' ↦ ?_) ?_, h.ascending.pushEntry _⟩,
      hsame, by rw [hperm.length_eq, List.length_cons]⟩
    · rw [lookup_insert_eq_update, lookup_insert_eq_update]
      exact hsettling
    · by_cases hcc : c' = c
      · subst hcc
        exact ⟨_, AList.lookup_insert _, (hbetter d' hd').le⟩
      · exact ⟨d', (AList.lookup_insert_ne hcc).trans hd', le_rfl⟩
    · intro u hu d' hd' l' c' _ hw
      rcases hwaived u l' c' hw with hw' | ⟨rfl, rfl, rfl⟩
      · exact .inl hw'
      · obtain rfl := Option.some.inj (hd.symm.trans hd')
        exact .inr ⟨_, AList.lookup_insert _, le_rfl⟩
  · rename_i hnot
    rw [improves_iff, not_forall] at hnot
    obtain ⟨known, hknown⟩ := hnot
    rw [Classical.not_imp, not_lt] at hknown
    refine ⟨st, rfl, ⟨h.settling, h.relaxed.mono (fun _ _ ↦ rfl) (fun c' d' hd' ↦ ⟨d', hd', le_rfl⟩)
      ?_, h.ascending⟩, fun _ _ ↦ rfl, Nat.le_succ _⟩
    intro u hu d' hd' l' c' _ hw
    rcases hwaived u l' c' hw with hw' | ⟨rfl, rfl, rfl⟩
    · exact .inl hw'
    · obtain rfl := Option.some.inj (hd.symm.trans hd')
      exact .inr ⟨known, hknown⟩

/-- **All the neighbours** of the node settled last. -/
theorem TracksWeighted.relaxNeighbors (display : F64 → String)
    (h : s.TracksWeighted numbers start direction edgeTypes weightProperty defaultWeight
      (fun u _ _ ↦ u = node) settled st)
    (hvalid : s.ValidWeights edgeTypes weightProperty defaultWeight) (hnode : node ∈ settled)
    (hd : st.dist.lookup node = some d)
    (hlast : ∀ u ∈ settled, ∀ d', st.dist.lookup u = some d' → d' ≤ d)
    {neighbors : List (NodeId × EdgeId × String)}
    (hmem : ∀ c l, (c, l) ∈ neighbors ↔ s.TypedHop direction edgeTypes node l c) :
    ∃ st', neighbors.foldlM (GraphStore.relaxNeighbor display numbers s weightProperty
        defaultWeight node d) st = .ok st' ∧
      s.TracksWeighted numbers start direction edgeTypes weightProperty defaultWeight
        (fun _ _ _ ↦ False) settled st' ∧
      st'.heap.length ≤ st.heap.length + neighbors.length := by
  have hrun := Except.foldlM_exists
    (f := GraphStore.relaxNeighbor display numbers s weightProperty defaultWeight node d)
    (fun done st' ↦ s.TracksWeighted numbers start direction edgeTypes weightProperty defaultWeight
      (fun u l c ↦ u = node ∧ (c, l) ∈ neighbors ∧ (c, l) ∉ done) settled st' ∧
      (∀ u ∈ settled, st'.dist.lookup u = st.dist.lookup u) ∧
      st'.heap.length ≤ st.heap.length + done.length) (l := neighbors) (s := st)
    ⟨⟨h.settling, fun u hu d' hd' l c hE ↦ ?_, h.ascending⟩, fun _ _ ↦ rfl, le_rfl⟩ ?_
  · obtain ⟨st', hrun, htracks, -, hlen⟩ := hrun
    refine ⟨st', hrun, ⟨htracks.settling, htracks.relaxed.mono (fun _ _ ↦ rfl)
      (fun c d hd ↦ ⟨d, hd, le_rfl⟩) ?_, htracks.ascending⟩, hlen⟩
    rintro u hu d' hd' l c - ⟨-, hin, hnot⟩
    exact absurd hin hnot
  · rcases h.relaxed u hu d' hd' l c hE with rfl | hdone
    · exact .inl ⟨rfl, (hmem c l).mpr hE, List.not_mem_nil⟩
    · exact .inr hdone
  · rintro done neighbor st' hpre ⟨htracks, hsame, hlen⟩
    have hin : neighbor ∈ neighbors := hpre.subset (by simp)
    obtain ⟨st'', hstep, htracks', hsame', hlen'⟩ := htracks.relaxNeighbor
      (Q := fun u l c ↦ u = node ∧ (c, l) ∈ neighbors ∧ (c, l) ∉ done ++ [neighbor])
      display hvalid hnode ((hsame node hnode).trans hd)
      (fun u hu d' hd' ↦ hlast u hu d' ((hsame u hu).symm.trans hd'))
      ((hmem neighbor.1 neighbor.2).mp hin) (by
        rintro u l c ⟨rfl, hcl, hnot⟩
        by_cases heq : (c, l) = neighbor
        · exact .inr ⟨rfl, by rw [← heq], by rw [← heq]⟩
        · exact .inl ⟨rfl, hcl, by simp [hnot, heq]⟩)
    refine ⟨st'', hstep, htracks', fun u hu ↦ (hsame' u hu).trans (hsame u hu), ?_⟩
    rw [List.length_append, List.length_singleton]
    omega

end Relax

/-! ## The answer -/

/-- What the search knows about its target: the cost and the way back of a walk that costs no more
than any other, or that there is no walk. -/
def Answered (s : GraphStore) (numbers : Weights W) (start target : NodeId) (direction : Direction)
    (edgeTypes : Option (List String)) (weightProperty : String) (defaultWeight : F64)
    (st : WeightedSearch W) : Prop :=
  match st.dist.lookup target with
  | none => ∀ steps, ¬Walk (s.TypedHop direction edgeTypes) start steps target
  | some cost =>
    (∃ steps, Traces (fun c ↦ st.parents.lookup c) start target steps ∧
      Walk (s.TypedHop direction edgeTypes) start steps target ∧
      walkCost (s.edgeCost numbers weightProperty defaultWeight) steps = cost) ∧
    ∀ steps, Walk (s.TypedHop direction edgeTypes) start steps target →
      cost ≤ walkCost (s.edgeCost numbers weightProperty defaultWeight) steps

theorem length_neighborsThrough_le {table : OrdMap Bytes Unit}
    {l : List (NodeId × EdgeId × String)} (h : neighborsThrough table node edgeTypes = .ok l) :
    l.length ≤ table.size := by
  obtain ⟨all, hall, heq⟩ := Except.bind_eq_ok.mp h
  rw [← Except.ok.inj heq, List.length_map]
  refine (List.length_filter_le _ _).trans ?_
  rw [← (Except.mapM_eq_ok_iff.mp hall).length_eq]
  exact List.length_filter_le _ _

theorem length_neighborsForPath_le {l : List (NodeId × EdgeId × String)}
    (h : s.neighborsForPath node direction edgeTypes = .ok l) :
    l.length ≤ s.adjOut.size + s.adjIn.size := by
  cases direction with
  | out => exact (length_neighborsThrough_le h).trans (Nat.le_add_right _ _)
  | «in» => exact (length_neighborsThrough_le h).trans (Nat.le_add_left _ _)
  | both =>
    obtain ⟨out, hout, h⟩ := Except.bind_eq_ok.mp h
    obtain ⟨incoming, hin, heq⟩ := Except.bind_eq_ok.mp h
    rw [← Except.ok.inj heq, List.length_append]
    exact Nat.add_le_add (length_neighborsThrough_le hout) (length_neighborsThrough_le hin)

theorem TracksWeighted.length_settled_le (hs : s.EdgesOk)
    (h : s.TracksWeighted numbers start direction edgeTypes weightProperty defaultWeight waived
      settled st) (hnodup : settled.Nodup) :
    settled.length ≤ s.adjOut.size + s.adjIn.size + 1 := by
  have hsub : settled ⊆ start :: s.rowEnds := by
    intro u hu
    obtain ⟨d, hd⟩ := h.settling.reached u hu
    obtain ⟨steps, -, hw, -⟩ := h.settling.back u d hd
    cases hw with
    | nil => exact List.mem_cons_self
    | snoc _ hE => exact List.mem_cons_of_mem _ (hs.reads_iff.mpr hE.hop).mem_rowEnds
  have hle := (hnodup.subperm hsub).length_le
  rw [List.length_cons] at hle
  exact hle.trans (Nat.succ_le_succ s.length_rowEnds_le)

variable [IsOrderedAddMonoid W] [CanonicallyOrderedAdd W]

/-- **The search answers for its target**, when its fuel covers the heap and what the nodes that are
not settled can add to it. -/
theorem dijkstraLoop_spec (display : F64 → String) (hs : s.EdgesOk)
    (hvalid : s.ValidWeights edgeTypes weightProperty defaultWeight) {fuel : ℕ}
    (h : s.TracksWeighted numbers start direction edgeTypes weightProperty defaultWeight
      (fun _ _ _ ↦ False) settled st) (hnodup : settled.Nodup) (htarget : target ∉ settled)
    (hfuel : st.heap.length + (s.adjOut.size + s.adjIn.size + 1 - settled.length) *
      (s.adjOut.size + s.adjIn.size) ≤ fuel) :
    ∃ st', s.dijkstraLoop display numbers target direction edgeTypes weightProperty defaultWeight
        fuel st = .ok st' ∧
      s.Answered numbers start target direction edgeTypes weightProperty defaultWeight st' := by
  have hempty : ∀ {settled : List NodeId} {st : WeightedSearch W},
      s.TracksWeighted numbers start direction edgeTypes weightProperty defaultWeight
        (fun _ _ _ ↦ False) settled st → target ∉ settled → st.heap = [] →
      s.Answered numbers start target direction edgeTypes weightProperty defaultWeight st := by
    intro settled st h htarget hheap
    have hsettling := h.settling
    rw [hheap] at hsettling
    obtain ⟨hnone, hwalk⟩ := hsettling.unreachable h.relaxed htarget
    rw [Answered, hnone]
    exact hwalk
  induction fuel generalizing settled st with
  | zero =>
    have hheap : st.heap = [] := List.length_eq_zero_iff.mp (by omega)
    exact ⟨st, rfl, hempty h htarget hheap⟩
  | succ fuel ih =>
    rw [dijkstraLoop]
    obtain ⟨dist, parents, heap⟩ := st
    cases heap with
    | nil => exact ⟨_, rfl, hempty h htarget rfl⟩
    | cons entry heap =>
      obtain ⟨d, node⟩ := entry
      obtain ⟨hsettling, hrelaxed, hascending⟩ := h
      obtain ⟨hmin, hascending⟩ := List.pairwise_cons.mp hascending
      replace hmin : ∀ e ∈ heap, d ≤ e.1 := fun e he ↦ (hmin e he).le
      dsimp only at hsettling hrelaxed hfuel ⊢
      rw [List.length_cons] at hfuel
      split_ifs with heq hstale
      · -- the first entry of the target to come up is not stale
        subst heq
        obtain ⟨hd, hleast⟩ := hsettling.least hrelaxed hmin htarget
        obtain ⟨steps, ht, hw, hcost, -⟩ := hsettling.back node d hd
        refine ⟨_, rfl, ?_⟩
        rw [Answered, hd]
        exact ⟨⟨steps, ht, hw, hcost⟩, hleast⟩
      · obtain ⟨known, hknown, hlt⟩ := staleEntry_iff.mp hstale
        exact ih ⟨hsettling.stale hknown hlt, hrelaxed, hascending⟩ hnodup htarget (by
          dsimp only
          omega)
      · have hd : dist.lookup node = some d := by
          obtain ⟨known, hknown, hlt | ⟨hle, -⟩⟩ := hsettling.sound (d, node) List.mem_cons_self
          · exact absurd (staleEntry_iff.mpr ⟨known, hknown, hlt⟩) hstale
          · exact hknown.trans (congrArg some hle)
        obtain ⟨hsettled, hnew, hlast⟩ := hsettling.settle hmin hd
        obtain ⟨neighbors, hcall, hmem⟩ := hs.neighborsForPath node direction edgeTypes
        have htracks : s.TracksWeighted numbers start direction edgeTypes weightProperty
            defaultWeight (fun u _ _ ↦ u = node) (node :: settled) ⟨dist, parents, heap⟩ := by
          refine ⟨hsettled, fun u hu d' hd' l c hE ↦ ?_, hascending⟩
          rcases List.mem_cons.mp hu with rfl | hu
          · exact .inl rfl
          · exact .inr ((hrelaxed u hu d' hd' l c hE).resolve_left id)
        obtain ⟨st', hstep, htracks', hlen⟩ := htracks.relaxNeighbors display hvalid
          List.mem_cons_self hd hlast hmem
        rw [hcall, Except.ok_bind, hstep, Except.ok_bind]
        have hnodup' : (node :: settled).Nodup := List.nodup_cons.mpr ⟨hnew, hnodup⟩
        refine ih htracks' hnodup' ?_ ?_
        · rw [List.mem_cons, not_or]
          exact ⟨Ne.symm heq, htarget⟩
        · -- one node fewer can add entries
          have hrows := length_neighborsForPath_le hcall
          have hcount := htracks'.length_settled_le hs hnodup'
          rw [List.length_cons] at hcount ⊢
          have hsplit : s.adjOut.size + s.adjIn.size + 1 - settled.length =
              (s.adjOut.size + s.adjIn.size + 1 - (settled.length + 1)) + 1 := by omega
          rw [hsplit, Nat.succ_mul] at hfuel
          dsimp only at hlen
          omega

/-! ## Lowest-cost paths -/

/-- The result is a path of the lowest cost, if both ends exist and there is a path. -/
structure LowestCost (s : GraphStore) (numbers : Weights W) (start target : NodeId)
    (direction : Direction) (edgeTypes : Option (List String)) (weightProperty : String)
    (defaultWeight : F64) (result : Option (WeightedPath W)) : Prop where
  /-- There is a result if both ends exist and the target can be reached. -/
  isSome_iff : result.isSome = true ↔ (s.getNodeIn start).isSome = true ∧
    (s.getNodeIn target).isSome = true ∧
    ∃ steps, Walk (s.TypedHop direction edgeTypes) start steps target
  /-- The result is a path with its cost. -/
  isPath : ∀ found, result = some found →
    ∃ steps, Walk (s.TypedHop direction edgeTypes) start steps target ∧
      found.path.steps = pathSteps start steps ∧
      found.cost = walkCost (s.edgeCost numbers weightProperty defaultWeight) steps
  /-- No path costs less. -/
  minimal : ∀ found, result = some found →
    ∀ steps, Walk (s.TypedHop direction edgeTypes) start steps target →
      found.cost ≤ walkCost (s.edgeCost numbers weightProperty defaultWeight) steps

/-- **Lowest-cost path.** In a store that satisfies the graph invariant, with weights that are finite
and not negative, the search succeeds, with a path of the lowest cost if there is a path. -/
theorem findWeightedPathIn_spec (display : F64 → String) (numbers : Weights W) (hs : s.Consistent)
    (hvalid : s.ValidWeights edgeTypes weightProperty defaultWeight) (start target : NodeId)
    (direction : Direction) :
    ∃ result, s.findWeightedPathIn display numbers start target direction edgeTypes weightProperty
        defaultWeight = .ok result ∧
      s.LowestCost numbers start target direction edgeTypes weightProperty defaultWeight result := by
  rw [findWeightedPathIn]
  simp only [hvalid.default, Except.guardOr, Bool.not_false, if_true, Except.ok_bind]
  split_ifs with hmissing
  · refine ⟨none, rfl, ⟨?_, by simp, by simp⟩⟩
    simp only [Option.isNone_iff_eq_none] at hmissing
    rcases hmissing with hmissing | hmissing <;> simp [hmissing]
  · rw [not_or, Option.isNone_iff_eq_none, Option.isNone_iff_eq_none, ← ne_eq, ← ne_eq,
      ← Option.isSome_iff_ne_none, ← Option.isSome_iff_ne_none] at hmissing
    have htracks : s.TracksWeighted numbers start direction edgeTypes weightProperty defaultWeight
        (fun _ _ _ ↦ False) [] ⟨(∅ : AList _).insert start 0, ∅, [(0, start)]⟩ := by
      refine ⟨?_, fun u hu ↦ absurd hu List.not_mem_nil, List.pairwise_singleton _ _⟩
      have hdist : (fun c ↦ ((∅ : AList fun _ : NodeId ↦ W).insert start 0).lookup c) =
          fun c ↦ if c = start then some 0 else none := by
        funext c
        split_ifs with hc
        · rw [hc]
          exact AList.lookup_insert _
        · rw [AList.lookup_insert_ne hc]
          rfl
      rw [hdist]
      exact Settling.init _ _ start
    obtain ⟨st, hloop, hanswer⟩ := dijkstraLoop_spec display hs.edges hvalid htracks .nil
      (List.not_mem_nil (a := target)) (by
        rw [List.length_singleton, List.length_nil, Nat.sub_zero, Nat.add_comm])
    rw [hloop, Except.ok_bind]
    rw [Answered] at hanswer
    cases hcost : st.dist.lookup target with
    | none =>
      rw [hcost] at hanswer
      refine ⟨none, rfl, ⟨?_, by simp, by simp⟩⟩
      simp only [Option.isSome_none, Bool.false_eq_true, false_iff, not_and, not_exists]
      exact fun _ _ ↦ hanswer
    | some cost =>
      rw [hcost] at hanswer
      obtain ⟨⟨steps, htraces, hwalk, hsum⟩, hleast⟩ := hanswer
      refine ⟨some ⟨⟨pathSteps start steps⟩, cost⟩, ?_, ⟨?_, ?_, ?_⟩⟩
      · simp only [walkParents_of_traces htraces, Except.ok_bind]
        rfl
      · exact iff_of_true rfl ⟨hmissing.1, hmissing.2, steps, hwalk⟩
      · rintro found heq
        obtain rfl := Option.some.inj heq
        exact ⟨steps, hwalk, rfl, hsum.symm⟩
      · rintro found heq
        obtain rfl := Option.some.inj heq
        exact hleast

end Search

end GraphStore

namespace GraphRun

open Graph GraphStore

/-- Four cities. A way of no length leads from the first to the third and back, and a detour over the
third is shorter than the road from the first to the second. -/
def roads : List (List GraphOp) :=
  [[.createNodesBulk [("City", ∅), ("City", ∅), ("City", ∅), ("City", ∅)]],
    [.createEdge ⟨1⟩ "ROAD" ⟨2⟩ ((∅ : Properties).insert "km" (.int 7)),
      .createEdge ⟨1⟩ "ROAD" ⟨3⟩ ((∅ : Properties).insert "km" (.int 0)),
      .createEdge ⟨3⟩ "ROAD" ⟨1⟩ ((∅ : Properties).insert "km" (.int 0)),
      .createEdge ⟨3⟩ "ROAD" ⟨2⟩ ((∅ : Properties).insert "km" (.float (F64.ofInt64 3))),
      .createEdge ⟨2⟩ "ROAD" ⟨4⟩ ∅]]

theorem consistent_roads : (run roads).store.Consistent := by
  refine (ok_run ?_).consistent
  have hroad : ShortType "ROAD" := by decide +kernel
  simp [roads, GraphOp.ShortEdges, hroad]

theorem validWeights_roads : (run roads).store.ValidWeights none "km" (F64.ofInt64 2) := by
  have hall : ∀ e ∈ (run roads).store.edges.entries,
      invalidWeight (edgeWeight (F64.ofInt64 2) (e.2.properties.get? "km")) = false := by
    decide +kernel
  refine ⟨by decide +kernel, fun e r hr _ ↦ ?_⟩
  have hmem : (edgeKey e, r) ∈ (run roads).store.edges.entries := OrdMap.mem_entries.mpr hr
  exact hall (edgeKey e, r) hmem

/-- The way from the first to the fourth. -/
theorem weightedPath_roads : ∃ result,
    (run roads).store.findWeightedPathIn (fun _ ↦ "") .rational ⟨1⟩ ⟨4⟩ .out none "km"
      (F64.ofInt64 2) = .ok result ∧
    (run roads).store.LowestCost .rational ⟨1⟩ ⟨4⟩ .out none "km" (F64.ofInt64 2) result :=
  findWeightedPathIn_spec _ .rational consistent_roads validWeights_roads _ _ _

example : (match (run roads).store.findWeightedPathIn (fun _ ↦ "") .rational ⟨1⟩ ⟨4⟩ .out none "km"
      (F64.ofInt64 2) with
    | .ok (some found) =>
      found.cost == 5 && found.path.steps.map PathStep.node == [⟨1⟩, ⟨3⟩, ⟨2⟩, ⟨4⟩]
    | _ => false) = true := by
  decide +kernel

end GraphRun
