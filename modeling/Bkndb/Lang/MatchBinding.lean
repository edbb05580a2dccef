import Bkndb.Lang.MatchSearch

/-!
# What the variables are bound to

A complete frame binds the variables of its match: a node's variable to the node, and a
relationship's to its edge, or to its edges in the order they were walked along. With that the
search is described: it goes over the matches whose anchor is a candidate, keeps the bindings of
those that the filter passes, and a limit cuts off what comes later.

## Complete frames

A frame that has taken all steps knows a node at every position and the edges of every
relationship, and a frame determines its match (`Ready.frameOf_injective`). Binding the variables
then either drops the frame, when a variable that is repeated stands for two nodes, or gives the
binding of the match.

## Direction

The edges of a relationship are listed in the order they were walked along. To the left of the
anchor this is from right to left, so the list that a variable is bound to depends on where the
search started (`boundTo`).

## Main results

* `MatchQuery.varsOk_of_varKinds`: a query that passes validation shares variables between nodes
  only.
* `bindNodes_spec` and `bindRels_spec`: what the loops that bind the variables leave.
* `Ready.search_eq`: the search goes over the matches whose anchor is a candidate, and keeps the
  bindings that the filter passes.
-/

open Graph Trails

/-! ## Variables -/

/-- Only nodes share a variable. -/
structure MatchQuery.VarsOk (q : MatchQuery) : Prop where
  apart : ∀ n ∈ q.nodes, ∀ rel ∈ q.rels, ∀ v, n.var = some v → rel.var ≠ some v
  once : q.rels.Pairwise fun rel rel' ↦ ∀ v, rel.var = some v → rel'.var ≠ some v

theorem get?_foldl_ne_none {f : OrdMap String VarKind → NodePattern → OrdMap String VarKind}
    (hf : ∀ vars n v, n.var = some v ∨ vars.get? v ≠ none → (f vars n).get? v ≠ none)
    {l : List NodePattern} {vars : OrdMap String VarKind} {v : String}
    (h : (∃ n ∈ l, n.var = some v) ∨ vars.get? v ≠ none) : (l.foldl f vars).get? v ≠ none := by
  induction l generalizing vars with
  | nil =>
    rcases h with ⟨n, hn, -⟩ | h
    · cases hn
    · exact h
  | cons n l ih =>
    refine ih ?_
    rcases h with ⟨n', hn', hv⟩ | hv
    · rcases List.mem_cons.mp hn' with rfl | hn'
      · exact .inr (hf _ _ _ (.inl hv))
      · exact .inl ⟨n', hn', hv⟩
    · exact .inr (hf _ _ _ (.inr hv))

/-- **The check of the variables.** -/
theorem MatchQuery.varsOk_of_varKinds {q : MatchQuery} {vars : OrdMap String VarKind}
    (h : q.varKinds = .ok vars) : q.VarsOk := by
  rw [MatchQuery.varKinds] at h
  have hrun := Except.foldlM_induction (fun done (vars : OrdMap String VarKind) ↦
    (∀ n ∈ q.nodes, ∀ v, n.var = some v → vars.get? v ≠ none) ∧
      (∀ rel ∈ done, ∀ v, rel.var = some v → vars.get? v ≠ none) ∧
      (∀ n ∈ q.nodes, ∀ rel ∈ done, ∀ v, n.var = some v → rel.var ≠ some v) ∧
      done.Pairwise fun rel rel' ↦ ∀ v, rel.var = some v → rel'.var ≠ some v) h
    ⟨fun n hn v hv ↦ get?_foldl_ne_none (fun vars n u hu ↦ by
      cases hvar : n.var with
      | none =>
        rw [hvar] at hu
        exact hu.resolve_left (by simp)
      | some w =>
        rw [hvar, Option.some.injEq] at hu
        simp only [OrdMap.get?_insert]
        split_ifs with heq
        · exact Option.some_ne_none _
        · exact hu.resolve_left (Ne.symm heq)) (.inl ⟨n, hn, hv⟩), by simp, by simp, .nil⟩ (by
      rintro done rel vars vars' - ⟨hn, hr, hapart, honce⟩ hstep
      -- the variable is new, and known afterwards
      obtain ⟨hkept, hnew⟩ : (∀ u, vars.get? u ≠ none → vars'.get? u ≠ none) ∧
          ∀ w, rel.var = some w → vars.get? w = none ∧ vars'.get? w ≠ none := by
        cases hv : rel.var with
        | none =>
          rw [hv] at hstep
          obtain rfl := Except.ok.inj hstep
          exact ⟨fun _ h ↦ h, fun w hw ↦ by cases hw⟩
        | some w =>
          rw [hv] at hstep
          obtain ⟨_, hfresh, heq⟩ := Except.bind_eq_ok.mp hstep
          rw [Except.guardOr_eq_ok] at hfresh
          obtain rfl := Except.ok.inj heq
          refine ⟨fun u hu ↦ ?_, fun w' hw' ↦ ?_⟩
          · rw [OrdMap.get?_insert]
            split <;> simp [hu]
          · obtain rfl := Option.some.inj hw'
            exact ⟨hfresh, by simp⟩
      refine ⟨fun n hmem v hv ↦ hkept v (hn n hmem v hv), ?_, ?_, ?_⟩
      · intro rel' hrel' v hv
        rcases List.mem_append.mp hrel' with hrel' | hrel'
        · exact hkept v (hr rel' hrel' v hv)
        · obtain rfl := List.mem_singleton.mp hrel'
          exact (hnew v hv).2
      · intro n hmem rel' hrel' v hv hv'
        rcases List.mem_append.mp hrel' with hrel' | hrel'
        · exact hapart n hmem rel' hrel' v hv hv'
        · obtain rfl := List.mem_singleton.mp hrel'
          exact hn n hmem v hv (hnew v hv').1
      · refine List.pairwise_append.mpr ⟨honce, List.pairwise_singleton _ _, ?_⟩
        intro rel' hrel' rel'' hrel'' v hv hv'
        obtain rfl := List.mem_singleton.mp hrel''
        exact hr rel' hrel' v hv (hnew v hv').1)
  exact ⟨hrun.2.2.1, hrun.2.2.2⟩

theorem MatchQuery.VarsOk.index_eq {q : MatchQuery} (hq : q.VarsOk) {i j : ℕ}
    {rel rel' : RelPattern} {v : String} (hi : q.rels[i]? = some rel) (hj : q.rels[j]? = some rel')
    (hv : rel.var = some v) (hv' : rel'.var = some v) : i = j := by
  obtain ⟨hilt, rfl⟩ := List.getElem?_eq_some_iff.mp hi
  obtain ⟨hjlt, rfl⟩ := List.getElem?_eq_some_iff.mp hj
  have honce := List.pairwise_iff_getElem.mp hq.once
  rcases lt_trichotomy i j with hlt | heq | hgt
  · exact absurd hv' (honce i j hilt hjlt hlt v hv)
  · exact heq
  · exact absurd hv (honce j i hjlt hilt hgt v hv')

namespace Match.Exec

variable {ex : Exec} {anchor : ℕ} {m : PatternMatch}

/-! ## Complete frames -/

theorem stepsFrom_perm (h : anchor ≤ ex.q.rels.length) :
    ((ex.stepsFrom anchor).map Prod.fst).Perm (List.range ex.q.rels.length) := by
  have hsplit : List.range ex.q.rels.length =
      List.range anchor ++ List.range' anchor (ex.q.rels.length - anchor) := by
    have := List.range'_append_1 (s := 0) (m := anchor) (n := ex.q.rels.length - anchor)
    rw [Nat.zero_add, Nat.add_sub_cancel' h] at this
    rw [List.range_eq_range', List.range_eq_range', this]
  rw [stepsFrom, List.map_append, List.map_map, List.map_map, hsplit]
  simp only [Function.comp_def, List.map_id']
  exact List.perm_append_comm.trans ((List.reverse_perm _).append_right _)

theorem used_perm (h : anchor ≤ ex.q.rels.length) (hlen : m.trails.length = ex.q.rels.length) :
    ((ex.relsOf anchor ex.q.rels.length m).flatMap Prod.snd).Perm m.trails.flatten := by
  have htrails : m.trails.flatten =
      (List.range ex.q.rels.length).flatMap fun i ↦ m.trails[i]?.getD [] := by
    rw [List.flatMap_def]
    congr 1
    refine List.ext_getElem? fun i ↦ ?_
    rw [List.getElem?_map]
    by_cases hi : i < ex.q.rels.length
    · rw [List.getElem?_range hi, Option.map_some, List.getElem?_eq_getElem (hlen ▸ hi),
        Option.getD_some]
    · rw [List.getElem?_eq_none (by omega), List.getElem?_eq_none (by simpa using hi)]
      rfl
  have hfull : (ex.stepsFrom anchor).take ex.q.rels.length = ex.stepsFrom anchor :=
    List.take_of_length_le (length_stepsFrom h).le
  rw [relsOf, hfull, htrails, List.flatMap_map]
  refine List.Perm.trans (List.Perm.flatMap_left _ (g := fun x ↦ m.trails[x.1]?.getD []) ?_) ?_
  · rintro ⟨i, forward⟩ -
    cases forward
    · exact List.reverse_perm _
    · exact List.Perm.refl _
  · have := (stepsFrom_perm h).flatMap_right fun i ↦ m.trails[i]?.getD []
    rwa [List.flatMap_map] at this

theorem known_all {j : ℕ} (hj : j ≤ ex.q.rels.length) :
    Known ex.q.rels.length anchor ex.q.rels.length j := by
  simp only [Known]
  omega

variable (ex) in
/-- A variable that is repeated stands for one node. -/
def Same (m : PatternMatch) : Prop :=
  ∀ (i j : ℕ) (n n' : NodePattern) (v : String), ex.q.nodes[i]? = some n →
    ex.q.nodes[j]? = some n' → n.var = some v → n'.var = some v → m.ends[i]? = m.ends[j]?

/-- **A match** is a match of the search whose repeated variables stand for one node each. -/
theorem Ready.isMatch_iff (hr : ex.Ready) (h : anchor ≤ ex.q.rels.length) :
    ex.IsMatch m ↔ ex.Partial anchor ex.q.rels.length m ∧ ex.Same m := by
  have hc := hr.chain
  constructor
  · intro hm
    refine ⟨⟨hm.ends_length, hm.trails_length, fun j id _ ↦ hm.node j id,
      fun i a es b _ ↦ hm.trail i a es b, ?_⟩, hm.same⟩
    exact (used_perm h hm.trails_length).nodup_iff.mpr hm.once
  · rintro ⟨hp, hsame⟩
    refine ⟨hp.ends_length, hp.trails_length, fun j id hid ↦ ?_, fun i a es b ha hes ↦ ?_, ?_,
      hsame⟩
    · have := (List.getElem?_eq_some_iff.mp hid).1
      rw [hp.ends_length] at this
      exact hp.node j id (known_all (by omega)) hid
    · have := (List.getElem?_eq_some_iff.mp hes).1
      rw [hp.trails_length] at this
      refine hp.trail i a es b ?_ ha hes
      simp only [Taken]
      omega
    · exact (used_perm h hp.trails_length).nodup_iff.mp hp.once

theorem Ready.positions_eq (hr : ex.Ready) (hlen : m.ends.length = ex.q.nodes.length) :
    (ex.frameOf anchor ex.q.rels.length m).positions = m.ends.map some := by
  have hc := hr.chain
  refine List.ext_getElem? fun j ↦ ?_
  by_cases hj : j < ex.q.nodes.length
  · rw [getElem?_positions _ _ _ hj, if_pos (known_all (by omega)), List.getElem?_map,
      List.getElem?_eq_getElem (hlen ▸ hj), Option.map_some]
  · rw [List.getElem?_eq_none (by simp [frameOf]; omega),
      List.getElem?_eq_none (by simp [hlen]; omega)]

/-- **A complete frame determines its match.** -/
theorem Ready.frameOf_injective (hr : ex.Ready) (h : anchor ≤ ex.q.rels.length) {m' : PatternMatch}
    (hp : ex.Partial anchor ex.q.rels.length m) (hp' : ex.Partial anchor ex.q.rels.length m')
    (heq : ex.frameOf anchor ex.q.rels.length m = ex.frameOf anchor ex.q.rels.length m') :
    m = m' := by
  have hpositions := congrArg Frame.positions heq
  rw [hr.positions_eq hp.ends_length, hr.positions_eq hp'.ends_length] at hpositions
  have hends : m.ends = m'.ends := (Option.some_injective _).list_map hpositions
  have hrels : ex.relsOf anchor ex.q.rels.length m = ex.relsOf anchor ex.q.rels.length m' :=
    congrArg Frame.rels heq
  have htrails : m.trails = m'.trails := by
    refine List.ext_getElem? fun i ↦ ?_
    by_cases hi : i < ex.q.rels.length
    · have hstep : (i, decide (anchor ≤ i)) ∈ (ex.stepsFrom anchor).take ex.q.rels.length :=
        (mem_take_stepsFrom h).mpr ⟨hi, by simp only [Taken]; omega, rfl⟩
      have hx := List.map_inj_left.mp hrels _ hstep
      have := congrArg (orient (decide (anchor ≤ i))) (Prod.mk.inj hx).2
      rw [orient_orient, orient_orient] at this
      rw [List.getElem?_eq_getElem (hp.trails_length ▸ hi),
        List.getElem?_eq_getElem (hp'.trails_length ▸ hi)] at this ⊢
      exact congrArg some this
    · rw [List.getElem?_eq_none (by rw [hp.trails_length]; omega),
        List.getElem?_eq_none (by rw [hp'.trails_length]; omega)]
  cases m
  cases m'
  exact congrArg₂ _ hends htrails

/-! ## Bindings -/

/-- What a relationship's variable is bound to. -/
def boundTo (rel : RelPattern) (es : List EdgeId) : Option Bound :=
  if rel.hops.isSome then some (.path es) else es.head?.map .rel

variable (ex) in
/-- **The binding of a match**, when the search starts from an anchor: the edges of a relationship
to the left of it are listed in the order they were walked along, from right to left. -/
structure Binds (anchor : ℕ) (m : PatternMatch) (b : Binding) : Prop where
  node : ∀ (j : ℕ) (n : NodePattern) (v : String), ex.q.nodes[j]? = some n → n.var = some v →
    b.get? v = m.ends[j]?.map .node
  rel : ∀ (i : ℕ) (rel : RelPattern) (v : String) (es : List EdgeId), ex.q.rels[i]? = some rel →
    rel.var = some v → m.trails[i]? = some es →
      b.get? v = boundTo rel (orient (decide (anchor ≤ i)) es)
  only : ∀ v, (∀ n ∈ ex.q.nodes, n.var ≠ some v) → (∀ rel ∈ ex.q.rels, rel.var ≠ some v) →
    b.get? v = none

/-! ## The nodes

The loop binds the first node of a variable and compares the later ones with it. It goes on after a
node that does not fit; the flag is what decides. -/

/-- The variables of some of the nodes are bound: each to the first node it stands for, and the flag
tells whether it stands for no other. -/
structure NodesBound (m : PatternMatch) (done : List (NodePattern × ℕ)) (s : Binding × Bool) :
    Prop where
  origin : ∀ v x, s.1.get? v = some x → ∃ n j, (n, j) ∈ done ∧ n.var = some v ∧
    m.ends[j]?.map .node = some x
  bound : ∀ n j, (n, j) ∈ done → ∀ v, n.var = some v → ∃ id, s.1.get? v = some (.node id) ∧
    (s.2 = true → m.ends[j]? = some id)
  differs : s.2 = false → ∃ n j n' j' v, (n, j) ∈ done ∧ (n', j') ∈ done ∧ n.var = some v ∧
    n'.var = some v ∧ m.ends[j]? ≠ m.ends[j']?

theorem NodesBound.bindNode {done : List (NodePattern × ℕ)} {s : Binding × Bool}
    (h : NodesBound m done s) {n : NodePattern} {j : ℕ} {id : NodeId} (hid : m.ends[j]? = some id) :
    ∃ s', bindNode (m.ends.map some) s (n, j) = .ok s' ∧ NodesBound m (done ++ [(n, j)]) s' := by
  obtain ⟨b, consistent⟩ := s
  have hposition : positionOf "all positions bound" (m.ends.map some) j = .ok id := by
    rw [positionOf, nth, List.getElem?_map, hid]
    rfl
  rw [Exec.bindNode]
  cases hv : n.var with
  | none =>
    refine ⟨_, rfl, fun v x hx ↦ ?_, fun n' j' hmem v hv' ↦ ?_, fun hs ↦ ?_⟩
    · obtain ⟨n', j', hmem, hx⟩ := h.origin v x hx
      exact ⟨n', j', List.mem_append_left _ hmem, hx⟩
    · rcases List.mem_append.mp hmem with hmem | hmem
      · exact h.bound n' j' hmem v hv'
      · obtain ⟨rfl, rfl⟩ := Prod.mk.inj (List.mem_singleton.mp hmem)
        rw [hv] at hv'
        cases hv'
    · obtain ⟨n₁, j₁, n₂, j₂, v, h₁, h₂, hrest⟩ := h.differs hs
      exact ⟨n₁, j₁, n₂, j₂, v, List.mem_append_left _ h₁, List.mem_append_left _ h₂, hrest⟩
  | some w =>
    have hinsert : (∀ n' j', (n', j') ∈ done → n'.var = some w → consistent = true →
        m.ends[j']? = some id) →
        NodesBound m (done ++ [(n, j)]) (b.insert w (.node id), consistent) := by
      intro hall
      refine ⟨fun v x hx ↦ ?_, fun n' j' hmem v hv' ↦ ?_, fun hs ↦ ?_⟩
      · rw [OrdMap.get?_insert] at hx
        split_ifs at hx with heq
        · exact ⟨n, j, by simp, heq ▸ hv, by rw [hid]; exact hx⟩
        · obtain ⟨n', j', hmem, hx⟩ := h.origin v x hx
          exact ⟨n', j', List.mem_append_left _ hmem, hx⟩
      · rw [OrdMap.get?_insert]
        rcases List.mem_append.mp hmem with hmem | hmem
        · split_ifs with heq
          · exact ⟨id, rfl, hall n' j' hmem (heq ▸ hv')⟩
          · exact h.bound n' j' hmem v hv'
        · obtain ⟨rfl, rfl⟩ := Prod.mk.inj (List.mem_singleton.mp hmem)
          obtain rfl := Option.some.inj (hv.symm.trans hv')
          exact ⟨id, by simp, fun _ ↦ hid⟩
      · obtain ⟨n₁, j₁, n₂, j₂, v, h₁, h₂, hrest⟩ := h.differs hs
        exact ⟨n₁, j₁, n₂, j₂, v, List.mem_append_left _ h₁, List.mem_append_left _ h₂, hrest⟩
    simp only [hposition, Except.ok_bind]
    -- the variable may be bound to a node already, and to nothing else
    cases hget : b.get? w with
    | none =>
      refine ⟨_, rfl, hinsert fun n' j' hmem hv' _ ↦ ?_⟩
      obtain ⟨prev, hprev, -⟩ := h.bound n' j' hmem w hv'
      rw [hget] at hprev
      cases hprev
    | some x =>
      obtain ⟨n₀, j₀, hmem₀, hv₀, hx⟩ := h.origin w x hget
      obtain ⟨prev, hprev, rfl⟩ := Option.map_eq_some_iff.mp hx
      simp only []
      split_ifs with hne
      · refine ⟨_, rfl, fun v x hx ↦ ?_, fun n' j' hmem v hv' ↦ ?_, fun _ ↦ ?_⟩
        · obtain ⟨n', j', hmem, hx⟩ := h.origin v x hx
          exact ⟨n', j', List.mem_append_left _ hmem, hx⟩
        · rcases List.mem_append.mp hmem with hmem | hmem
          · obtain ⟨prev', hprev', -⟩ := h.bound n' j' hmem v hv'
            exact ⟨prev', hprev', fun h ↦ by cases h⟩
          · obtain ⟨rfl, rfl⟩ := Prod.mk.inj (List.mem_singleton.mp hmem)
            obtain rfl := Option.some.inj (hv.symm.trans hv')
            exact ⟨prev, hget, fun h ↦ by cases h⟩
        · refine ⟨n₀, j₀, n, j, w, List.mem_append_left _ hmem₀, by simp, hv₀, hv, ?_⟩
          rw [hprev, hid]
          simpa using hne
      · obtain rfl := not_not.mp hne
        refine ⟨_, rfl, hinsert fun n' j' hmem hv' hc ↦ ?_⟩
        obtain ⟨prev', hprev', hends⟩ := h.bound n' j' hmem w hv'
        obtain rfl : prev = prev' := by
          have := hget.symm.trans hprev'
          simpa using this
        exact hends hc

/-- **Binding the nodes** of a match tells whether every repeated variable stands for one node. -/
theorem bindNodes_spec (hlen : m.ends.length = ex.q.nodes.length) : ∃ s,
    ex.bindNodes (m.ends.map some) = .ok s ∧ NodesBound m ex.q.nodes.zipIdx s ∧
      (s.2 = true ↔ ex.Same m) := by
  obtain ⟨s, hs, hbound⟩ := Except.foldlM_exists (l := ex.q.nodes.zipIdx)
    (s := ((∅ : Binding), true)) (f := bindNode (m.ends.map some)) (NodesBound m)
    ⟨by simp, by simp, by simp⟩ (by
      rintro done ⟨n, j⟩ s hpre h
      have hmem : (n, j) ∈ ex.q.nodes.zipIdx := hpre.subset (by simp)
      have hj := (List.getElem?_eq_some_iff.mp (List.mem_zipIdx_iff_getElem?.mp hmem)).1
      exact h.bindNode (List.getElem?_eq_getElem (hlen ▸ hj)))
  refine ⟨s, hs, hbound, fun hc i j n n' v hi hj hv hv' ↦ ?_, fun hsame ↦ ?_⟩
  · obtain ⟨id, hid, hends⟩ := hbound.bound n i (List.mem_zipIdx_iff_getElem?.mpr hi) v hv
    obtain ⟨id', hid', hends'⟩ := hbound.bound n' j (List.mem_zipIdx_iff_getElem?.mpr hj) v hv'
    rw [hends hc, hends' hc]
    have := hid.symm.trans hid'
    simpa using this
  · by_contra hne
    obtain ⟨n, i, n', j, v, hi, hj, hv, hv', hdiff⟩ := hbound.differs (Bool.not_eq_true _ ▸ hne)
    exact hdiff (hsame i j n n' v (List.mem_zipIdx_iff_getElem?.mp hi)
      (List.mem_zipIdx_iff_getElem?.mp hj) hv hv')

/-! ## The relationships -/

theorem mem_relsOf (h : anchor ≤ ex.q.rels.length) {i : ℕ} {es : List EdgeId} :
    (i, es) ∈ ex.relsOf anchor ex.q.rels.length m ↔
      i < ex.q.rels.length ∧ es = orient (decide (anchor ≤ i)) (m.trails[i]?.getD []) := by
  rw [relsOf, List.mem_map]
  constructor
  · rintro ⟨⟨k, forward⟩, hmem, heq⟩
    obtain ⟨rfl, rfl⟩ := Prod.mk.inj heq
    obtain ⟨hlt, -, rfl⟩ := (mem_take_stepsFrom h).mp hmem
    exact ⟨hlt, rfl⟩
  · rintro ⟨hlt, rfl⟩
    exact ⟨(i, decide (anchor ≤ i)), (mem_take_stepsFrom h).mpr
      ⟨hlt, by simp only [Taken]; omega, rfl⟩, rfl⟩

variable (ex) in
/-- The variables of some of the relationships are bound, over a binding of the nodes. -/
structure RelsBound (b₀ : Binding) (done : List (ℕ × List EdgeId)) (b : Binding) : Prop where
  bound : ∀ i es rel v, (i, es) ∈ done → ex.q.rels[i]? = some rel → rel.var = some v →
    b.get? v = boundTo rel es
  kept : ∀ v, (∀ rel ∈ ex.q.rels, rel.var ≠ some v) → b.get? v = b₀.get? v

theorem RelsBound.bindRel (hq : ex.q.VarsOk) {b₀ b : Binding} {done : List (ℕ × List EdgeId)}
    (h : ex.RelsBound b₀ done b) {i : ℕ} {es : List EdgeId} {rel : RelPattern}
    (hrel : ex.q.rels[i]? = some rel) (hes : rel.hops.isSome = false → es ≠ [])
    (hone : ∀ es', (i, es') ∈ done → es' = es) :
    ∃ b', ex.bindRel b (i, es) = .ok b' ∧ ex.RelsBound b₀ (done ++ [(i, es)]) b' := by
  rw [Exec.bindRel, nth_eq_ok.mpr hrel, Except.ok_bind]
  cases hv : rel.var with
  | none =>
    refine ⟨b, rfl, fun i' es' rel' v hmem hrel' hv' ↦ ?_, h.kept⟩
    rcases List.mem_append.mp hmem with hmem | hmem
    · exact h.bound i' es' rel' v hmem hrel' hv'
    · obtain ⟨rfl, rfl⟩ := Prod.mk.inj (List.mem_singleton.mp hmem)
      obtain rfl := Option.some.inj (hrel.symm.trans hrel')
      rw [hv] at hv'
      cases hv'
  | some w =>
    have hinsert : ∀ x, boundTo rel es = some x →
        ex.RelsBound b₀ (done ++ [(i, es)]) (b.insert w x) := by
      intro x hx
      refine ⟨fun i' es' rel' v hmem hrel' hv' ↦ ?_, fun v hnot ↦ ?_⟩
      · rw [OrdMap.get?_insert]
        rcases List.mem_append.mp hmem with hdone | hmem
        · split_ifs with heq
          · obtain rfl := hq.index_eq hrel' hrel hv' (heq ▸ hv)
            obtain rfl := Option.some.inj (hrel.symm.trans hrel')
            rw [hone es' hdone, hx]
          · exact h.bound i' es' rel' v hdone hrel' hv'
        · obtain ⟨rfl, rfl⟩ := Prod.mk.inj (List.mem_singleton.mp hmem)
          obtain rfl := Option.some.inj (hrel.symm.trans hrel')
          obtain rfl := Option.some.inj (hv.symm.trans hv')
          rw [if_pos rfl, hx]
      · rw [OrdMap.get?_insert, if_neg, h.kept v hnot]
        rintro rfl
        exact hnot rel (List.mem_of_getElem? hrel) hv
    simp only []
    split_ifs with hhops
    · exact ⟨_, rfl, hinsert _ (by rw [boundTo, if_pos hhops])⟩
    · cases es with
      | nil => exact absurd rfl (hes (by simpa using hhops))
      | cons e es => exact ⟨_, rfl, hinsert _ (by rw [boundTo, if_neg hhops]; rfl)⟩

/-- **Binding the relationships** of a match. -/
theorem bindRels_spec (h : anchor ≤ ex.q.rels.length) (hq : ex.q.VarsOk)
    (hp : ex.Partial anchor ex.q.rels.length m) (hc : ex.q.nodes.length = ex.q.rels.length + 1)
    (b₀ : Binding) : ∃ b, ex.bindRels (ex.relsOf anchor ex.q.rels.length m) b₀ = .ok b ∧
      ex.RelsBound b₀ (ex.relsOf anchor ex.q.rels.length m) b := by
  refine Except.foldlM_exists (ex.RelsBound b₀) ⟨by simp, fun _ _ ↦ rfl⟩ ?_
  rintro done ⟨i, es⟩ b hpre hbound
  have hmem : (i, es) ∈ ex.relsOf anchor ex.q.rels.length m := hpre.subset (by simp)
  obtain ⟨hi, hes⟩ := (mem_relsOf h).mp hmem
  have hrel := List.getElem?_eq_getElem hi
  refine hbound.bindRel hq hrel (fun hhops ↦ ?_) fun es' hdone ↦ ?_
  · -- one hop has one edge
    have ha := List.getElem?_eq_getElem (l := m.ends) (i := i) (by rw [hp.ends_length]; omega)
    have hb := List.getElem?_eq_getElem (l := m.ends) (i := i + 1) (by rw [hp.ends_length]; omega)
    have ht := List.getElem?_eq_getElem (l := m.trails) (i := i) (by rw [hp.trails_length]; omega)
    have hwithin := (hp.trail i _ _ _ (by simp only [Taken]; omega) ha ht hb).2 _ hrel
    have hnone : ex.q.rels[i].hops = none := by simpa using hhops
    rw [RelPattern.Within, hnone] at hwithin
    rw [ht, Option.getD_some] at hes
    rintro rfl
    have := congrArg List.length hes
    simp only [Option.getD_none] at hwithin
    rw [length_orient, List.length_nil] at this
    omega
  · have hmem' : (i, es') ∈ ex.relsOf anchor ex.q.rels.length m := hpre.subset (by simp [hdone])
    rw [hes, ((mem_relsOf h).mp hmem').2]

/-! ## The search

`keep` is what the loop does with a complete frame. A limit makes it stop, so the search is a fold
that may end early over the bindings of the matches. -/

variable [Unicode]

variable (ex) in
/-- What the search does with the binding of a match. -/
def keep (limit : Option ℕ) (found : List Binding) (b : Binding) :
    Except BknError (List Binding × Bool) := do
  if !(← ex.passes b) then return (found, false)
  return (found ++ [b], limit.any (· ≤ (found ++ [b]).length))

theorem Ready.finish_frameOf_of_not_same (hr : ex.Ready)
    (hlen : m.ends.length = ex.q.nodes.length) (hsame : ¬ex.Same m) (limit : Option ℕ)
    (found : List Binding) :
    ex.finish limit found (ex.frameOf anchor ex.q.rels.length m) = .ok (found, false) := by
  obtain ⟨⟨b, consistent⟩, hb, -, hiff⟩ := bindNodes_spec hlen
  have hc : consistent = false := by simpa using mt hiff.mp hsame
  rw [finish, hr.positions_eq hlen, hb, Except.ok_bind]
  simp only [hc]
  rfl

/-- **A complete frame whose variables are consistent** binds them. -/
theorem Ready.finish_frameOf (hr : ex.Ready) (h : anchor ≤ ex.q.rels.length) (hq : ex.q.VarsOk)
    (hp : ex.Partial anchor ex.q.rels.length m) (hsame : ex.Same m) : ∃ b, ex.Binds anchor m b ∧
      ∀ limit found, ex.finish limit found (ex.frameOf anchor ex.q.rels.length m) =
        ex.keep limit found b := by
  obtain ⟨⟨b₀, consistent⟩, hb₀, hnodes, hiff⟩ := bindNodes_spec hp.ends_length
  obtain rfl : consistent = true := hiff.mpr hsame
  obtain ⟨b, hb, hrels⟩ := bindRels_spec h hq hp hr.chain b₀
  refine ⟨b, ⟨fun j n v hn hv ↦ ?_, fun i rel v es hrel hv hes ↦ ?_, fun v hnode hrel ↦ ?_⟩,
    fun limit found ↦ ?_⟩
  · obtain ⟨id, hid, hends⟩ := hnodes.bound n j (List.mem_zipIdx_iff_getElem?.mpr hn) v hv
    rw [hrels.kept v fun rel hmem ↦ hq.apart n (List.mem_of_getElem? hn) rel hmem v hv, hid,
      hends rfl]
    rfl
  · refine hrels.bound i _ rel v ((mem_relsOf h).mpr ⟨(List.getElem?_eq_some_iff.mp hrel).1, ?_⟩)
      hrel hv
    rw [hes, Option.getD_some]
  · rw [hrels.kept v hrel]
    refine Option.eq_none_iff_forall_not_mem.mpr fun x hx ↦ ?_
    obtain ⟨n, j, hmem, hv, -⟩ := hnodes.origin v x hx
    exact hnode n (List.mem_of_getElem? (List.mem_zipIdx_iff_getElem?.mp hmem)) hv
  · rw [finish, hr.positions_eq hp.ends_length, hb₀, Except.ok_bind]
    simp only []
    rw [show (ex.frameOf anchor ex.q.rels.length m).rels = ex.relsOf anchor ex.q.rels.length m
      from rfl, hb]
    rfl

omit [Unicode] in
theorem exists_map_frameOf {P : PatternMatch → Prop} {frame : PatternMatch → Frame}
    {frames : List Frame} (h : ∀ f ∈ frames, ∃ m, P m ∧ f = frame m) :
    ∃ ms : List PatternMatch, frames = ms.map frame ∧ ∀ m ∈ ms, P m := by
  induction frames with
  | nil => exact ⟨[], rfl, fun m hm ↦ by cases hm⟩
  | cons f frames ih =>
    obtain ⟨m, hm, rfl⟩ := h f List.mem_cons_self
    obtain ⟨ms, rfl, hms⟩ := ih fun f hf ↦ h f (List.mem_cons_of_mem _ hf)
    exact ⟨m :: ms, rfl, List.forall_mem_cons.mpr ⟨hm, hms⟩⟩

/-- **The leaves of the search from the candidates** are the frames of the matches with a candidate
at the anchor, and with enough fuel the search looks at them in order. -/
theorem Ready.exists_leaves (hr : ex.Ready) (h : anchor ≤ ex.q.rels.length)
    (candidates : List NodeId) : ∃ ms : List PatternMatch,
      (∀ m, m ∈ ms ↔ ex.Partial anchor ex.q.rels.length m ∧
        ∃ id ∈ candidates, m.ends[anchor]? = some id) ∧
      ((∀ rel ∈ ex.q.rels, rel.Distinct) → candidates.Nodup → ms.Nodup) ∧
      ∀ limit, ∃ k, ∀ fuel, k ≤ fuel → ex.search fuel anchor limit candidates =
        Dfs.forUntil (ex.finish limit) (ms.map (ex.frameOf anchor ex.q.rels.length)) [] := by
  have hanchor : anchor < ex.q.nodes.length := by
    have := hr.chain
    omega
  choose fits hfits hiff using hr.nodeMatches_spec hanchor
  have hcand : ∀ start ∈ candidates.filter fits, ex.NodeFits anchor start := fun start hstart ↦
    (hiff start).mp (List.mem_filter.mp hstart).2
  let leaves := fun start ↦
    Dfs.leaves (ex.children anchor) ex.q.rels.length (ex.startFrame anchor start)
  have hleaves : ∀ start, fits start = true → ∀ f, f ∈ leaves start ↔ ∃ m,
      ex.Partial anchor ex.q.rels.length m ∧ m.ends[anchor]? = some start ∧
        f = ex.frameOf anchor ex.q.rels.length m :=
    fun start hstart f ↦ hr.mem_leaves h ((hiff start).mp hstart)
  have hframes : ∀ f ∈ (candidates.filter fits).flatMap leaves, ∃ m,
      (ex.Partial anchor ex.q.rels.length m ∧
        ∃ id ∈ candidates.filter fits, m.ends[anchor]? = some id) ∧
      f = ex.frameOf anchor ex.q.rels.length m := by
    intro f hf
    obtain ⟨start, hstart, hf⟩ := List.mem_flatMap.mp hf
    obtain ⟨m, hp, hid, rfl⟩ := (hleaves start (List.mem_filter.mp hstart).2 f).mp hf
    exact ⟨m, ⟨hp, start, hstart, hid⟩, rfl⟩
  obtain ⟨ms, hms, hall⟩ := exists_map_frameOf hframes
  refine ⟨ms, fun m ↦ ⟨fun hm ↦ ?_, ?_⟩, fun hdistinct hnodup ↦ ?_, ?_⟩
  · obtain ⟨hp, id, hid, hends⟩ := hall m hm
    exact ⟨hp, id, (List.mem_filter.mp hid).1, hends⟩
  · rintro ⟨hp, id, hid, hends⟩
    have hfit : fits id = true := (hiff id).mpr (hp.node anchor id (known_all h) hends)
    have hmem : ex.frameOf anchor ex.q.rels.length m ∈ (candidates.filter fits).flatMap leaves :=
      List.mem_flatMap.mpr ⟨id, List.mem_filter.mpr ⟨hid, hfit⟩,
        (hleaves id hfit _).mpr ⟨m, hp, hends, rfl⟩⟩
    rw [hms] at hmem
    obtain ⟨m', hm', heq⟩ := List.mem_map.mp hmem
    exact hr.frameOf_injective h (hall m' hm').1 hp heq ▸ hm'
  · refine List.Nodup.of_map (ex.frameOf anchor ex.q.rels.length) ?_
    rw [← hms, List.nodup_flatMap]
    refine ⟨fun start hstart ↦ ?_, (hnodup.filter _).imp_of_mem fun {a b} ha hb hne ↦ ?_⟩
    · exact List.Nodup.of_map _ (hr.nodup_leaves h hdistinct (hcand start hstart))
    · -- frames of different candidates differ at the anchor
      refine List.disjoint_left.mpr fun f hf hf' ↦ hne ?_
      obtain ⟨m, hp, hid, rfl⟩ := (hleaves a (List.mem_filter.mp ha).2 f).mp hf
      obtain ⟨m', hp', hid', heq⟩ := (hleaves b (List.mem_filter.mp hb).2 _).mp hf'
      obtain rfl := hr.frameOf_injective h hp hp' heq
      exact Option.some.inj (hid.symm.trans hid')
  · intro limit
    obtain ⟨k, hk⟩ := Dfs.exists_fuel fun start hstart ↦
      (hr.walks h start limit).loop_singleton (hr.below_startFrame h (hcand start hstart))
    refine ⟨k, fun fuel hfuel ↦ ?_⟩
    rw [← hms, Dfs.forUntil_flatMap, Dfs.forUntil_filter, search]
    refine Dfs.forUntil_congr (fun start hstart found ↦ ?_) []
    rw [hfits, Except.ok_bind]
    cases hfit : fits start with
    | false => rfl
    | true => exact hk start (List.mem_filter.mpr ⟨hstart, hfit⟩) fuel hfuel found

/-- **The search**: it goes over the matches whose anchor is a candidate, and keeps the bindings
that the filter passes. -/
theorem Ready.search_eq (hr : ex.Ready) (h : anchor ≤ ex.q.rels.length) (hq : ex.q.VarsOk)
    (candidates : List NodeId) : ∃ rows : List (PatternMatch × Binding),
      (∀ m, m ∈ rows.map Prod.fst ↔ ex.IsMatch m ∧ ∃ id ∈ candidates, m.ends[anchor]? = some id) ∧
      ((∀ rel ∈ ex.q.rels, rel.Distinct) → candidates.Nodup → (rows.map Prod.fst).Nodup) ∧
      (∀ x ∈ rows, ex.Binds anchor x.1 x.2) ∧
      ∀ limit, ∃ k, ∀ fuel, k ≤ fuel → ex.search fuel anchor limit candidates =
        Dfs.forUntil (ex.keep limit) (rows.map Prod.snd) [] := by
  classical
  obtain ⟨ms, hms, hnodup, hsearch⟩ := hr.exists_leaves h candidates
  have hbinding : ∀ m, ∃ b, ex.Partial anchor ex.q.rels.length m → ex.Same m →
      ex.Binds anchor m b ∧ ∀ limit found,
        ex.finish limit found (ex.frameOf anchor ex.q.rels.length m) = ex.keep limit found b := by
    intro m
    by_cases hm : ex.Partial anchor ex.q.rels.length m ∧ ex.Same m
    · obtain ⟨b, hb⟩ := hr.finish_frameOf h hq hm.1 hm.2
      exact ⟨b, fun _ _ ↦ hb⟩
    · exact ⟨∅, fun hp hsame ↦ absurd ⟨hp, hsame⟩ hm⟩
  choose binding hbinding using hbinding
  have hfst : ((ms.filter (ex.Same ·)).map fun m ↦ (m, binding m)).map Prod.fst =
      ms.filter (ex.Same ·) := by simp [Function.comp_def]
  refine ⟨(ms.filter (ex.Same ·)).map fun m ↦ (m, binding m), fun m ↦ ?_, fun hdistinct hcand ↦ ?_,
    fun x hx ↦ ?_, fun limit ↦ ?_⟩
  · rw [hfst, List.mem_filter, hms, hr.isMatch_iff h, decide_eq_true_iff]
    tauto
  · rw [hfst]
    exact (hnodup hdistinct hcand).filter _
  · obtain ⟨m, hm, rfl⟩ := List.mem_map.mp hx
    obtain ⟨hmem, hsame⟩ := List.mem_filter.mp hm
    exact (hbinding m ((hms m).mp hmem).1 (of_decide_eq_true hsame)).1
  · obtain ⟨k, hk⟩ := hsearch limit
    refine ⟨k, fun fuel hfuel ↦ ?_⟩
    rw [hk fuel hfuel, Dfs.forUntil_map, List.map_map, Dfs.forUntil_map, Dfs.forUntil_filter]
    refine Dfs.forUntil_congr (fun m hm found ↦ ?_) []
    have hp := ((hms m).mp hm).1
    by_cases hsame : ex.Same m
    · rw [if_pos (decide_eq_true hsame)]
      exact (hbinding m hp hsame).2 limit found
    · rw [if_neg (by simpa using hsame)]
      exact hr.finish_frameOf_of_not_same hp.ends_length hsame limit found

end Match.Exec
