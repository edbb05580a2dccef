import Bkndb.Lang.MatchFind

/-!
# Lists of edges

The variable of a relationship of variable length is bound to the list of its edges. The list is
meant to be read as the pattern is, from left to right; it is collected as the search goes, and to
the left of the start the search goes from right to left.

## When the list follows the pattern

A list to the right of the start does. A list to the left of it is reversed, and a reversed list is
still a walk from the left node to the right one in two cases only: the relationship has no
direction and comes back to the node where it started, or every edge of the list joins its two
ends.

## Main results

* `followsTrail_iff`: when the list of a relationship follows the pattern.
* `follows_iff_of_findMatches`: what a query finds follows the pattern exactly if that holds of
  every match and of every relationship to the left of the start.
-/

open Graph Trails

/-- A pattern that is a chain, and whose variables pass the check: what the parser lets through. -/
structure MatchQuery.Checked (q : MatchQuery) : Prop where
  chain : q.nodes.length = q.rels.length + 1
  vars : ∃ vars, q.varKinds = .ok vars

theorem MatchQuery.Checked.varsOk {q : MatchQuery} (h : q.Checked) : q.VarsOk := by
  obtain ⟨vars, hvars⟩ := h.vars
  exact varsOk_of_varKinds hvars

namespace Match.Exec

variable {ex : Exec} {anchor i : ℕ} {m : PatternMatch} {b : Binding}

/-! ## Edges between two nodes -/

theorem joinsOnce_leads : JoinsOnce (ex.Leads i true) := by
  rintro x e y x' y' ⟨rel, -, r, hrel, -, hr, -, hjoins, -⟩
    ⟨rel', -, r', hrel', -, hr', -, hjoins', -⟩
  obtain rfl := Option.some.inj (hrel.symm.trans hrel')
  obtain rfl := Option.some.inj (hr.symm.trans hr')
  cases hway : way rel.direction true <;> rw [hway] at hjoins hjoins'
  · exact .inl ⟨hjoins.1.symm.trans hjoins'.1, hjoins.2.symm.trans hjoins'.2⟩
  · exact .inl ⟨hjoins.1.symm.trans hjoins'.1, hjoins.2.symm.trans hjoins'.2⟩
  · rcases hjoins with ⟨rfl, rfl⟩ | ⟨rfl, rfl⟩ <;> rcases hjoins' with ⟨rfl, rfl⟩ | ⟨rfl, rfl⟩
    · exact .inl ⟨rfl, rfl⟩
    · exact .inr ⟨rfl, rfl⟩
    · exact .inr ⟨rfl, rfl⟩
    · exact .inl ⟨rfl, rfl⟩

/-- With a direction, an edge leads one way only. -/
theorem eq_of_leads {rel : RelPattern} (hrel : ex.q.rels[i]? = some rel)
    (hne : rel.direction ≠ .either) {x y : NodeId} {e : EdgeId} (h : ex.Leads i true x e y)
    (h' : ex.Leads i true y e x) : x = y := by
  obtain ⟨rel₁, -, r, hrel₁, -, hr, -, hjoins, -⟩ := h
  obtain ⟨rel₂, -, r', hrel₂, -, hr', -, hjoins', -⟩ := h'
  obtain rfl := Option.some.inj (hrel.symm.trans hrel₁)
  obtain rfl := Option.some.inj (hrel.symm.trans hrel₂)
  obtain rfl := Option.some.inj (hr.symm.trans hr')
  cases hd : rel.direction with
  | right =>
    rw [hd] at hjoins hjoins'
    exact hjoins.1.symm.trans hjoins'.1
  | left =>
    rw [hd] at hjoins hjoins'
    exact hjoins.1.symm.trans hjoins'.1
  | either => exact absurd hd hne

/-- Without one, it leads both ways. -/
theorem leads_symm {rel : RelPattern} (hrel : ex.q.rels[i]? = some rel)
    (heither : rel.direction = .either) {x y : NodeId} {e : EdgeId} (h : ex.Leads i true x e y) :
    ex.Leads i true y e x := by
  obtain ⟨rel', props, r, hrel', hprops, hr, hadmits, hjoins, hhas⟩ := h
  obtain rfl := Option.some.inj (hrel.symm.trans hrel')
  refine ⟨rel, props, r, hrel, hprops, hr, hadmits, ?_, hhas⟩
  rw [heither] at hjoins ⊢
  exact hjoins.symm.imp And.symm And.symm

/-! ## One relationship -/

variable (ex) in
/-- The edges can be read both ways: the relationship has no direction and comes back to where it
started, or every edge joins its two ends. -/
def BothWays (i : ℕ) (rel : RelPattern) (s : NodeId) (es : List EdgeId) (t : NodeId) : Prop :=
  (rel.direction = .either ∧ s = t) ∨ ∀ e ∈ es, ex.Leads i true s e t ∨ ex.Leads i true t e s

/-- When the reversed list of a trail is a walk as well. -/
theorem walk_reverse_leads_iff {rel : RelPattern} (hrel : ex.q.rels[i]? = some rel) {s t : NodeId}
    {es : List EdgeId} (h : Walk (ex.Leads i true) s es t) :
    Walk (ex.Leads i true) s es.reverse t ↔ ex.BothWays i rel s es t := by
  constructor
  · intro hback
    by_cases hends : rel.direction = .either ∧ s = t
    · exact .inl hends
    · refine .inr ((joins_of_walk_reverse joinsOnce_leads ?_).1 h hback)
      by_cases heither : rel.direction = .either
      · exact .inr fun heq ↦ hends ⟨heither, heq⟩
      · exact .inl fun x e y ↦ eq_of_leads hrel heither
  · rintro (⟨heither, rfl⟩ | hjoin)
    · have hsymm : (fun x e y ↦ ex.Leads i true y e x) = ex.Leads i true := by
        funext x e y
        exact propext ⟨leads_symm hrel heither, leads_symm hrel heither⟩
      have hback := walk_reverse.mp h
      rwa [hsymm] at hback
    · exact (walk_reverse_of_joins joinsOnce_leads hjoin).1 h

variable (ex) in
/-- **The list follows the pattern**: what the variable of a relationship of variable length is
bound to leads, edge by edge, from the node at its left to the node at its right. -/
def FollowsTrail (m : PatternMatch) (b : Binding) (i : ℕ) (v : String) : Prop :=
  ∀ s t, m.ends[i]? = some s → m.ends[i + 1]? = some t →
    ∃ es, b.get? v = some (.path es) ∧ Walk (ex.Leads i true) s es t

theorem followsTrail_iff (hm : ex.IsMatch m) (hb : ex.Binds anchor m b)
    (hchain : ex.q.nodes.length = ex.q.rels.length + 1) {rel : RelPattern} {v : String}
    (hrel : ex.q.rels[i]? = some rel) (hv : rel.var = some v) (hhops : rel.hops.isSome = true) :
    ex.FollowsTrail m b i v ↔ anchor ≤ i ∨ ∀ s es t, m.ends[i]? = some s →
      m.trails[i]? = some es → m.ends[i + 1]? = some t → ex.BothWays i rel s es t := by
  have hlt := (List.getElem?_eq_some_iff.mp hrel).1
  obtain ⟨s, hs⟩ : ∃ s, m.ends[i]? = some s :=
    ⟨_, List.getElem?_eq_getElem (by rw [hm.ends_length]; omega)⟩
  obtain ⟨t, ht⟩ : ∃ t, m.ends[i + 1]? = some t :=
    ⟨_, List.getElem?_eq_getElem (by rw [hm.ends_length]; omega)⟩
  obtain ⟨es, hes⟩ : ∃ es, m.trails[i]? = some es :=
    ⟨_, List.getElem?_eq_getElem (by rw [hm.trails_length]; exact hlt)⟩
  have hwalk := (hm.trail i s es t hs hes ht).1
  have hbound := hb.rel i rel v es hrel hv hes
  rw [boundTo, if_pos hhops] at hbound
  have hfollows : ex.FollowsTrail m b i v ↔
      Walk (ex.Leads i true) s (orient (decide (anchor ≤ i)) es) t := by
    constructor
    · intro h
      obtain ⟨es', hget, hwalk'⟩ := h s t hs ht
      obtain rfl := Bound.path.inj (Option.some.inj (hbound.symm.trans hget))
      exact hwalk'
    · intro h s' t' hs' ht'
      obtain rfl := Option.some.inj (hs.symm.trans hs')
      obtain rfl := Option.some.inj (ht.symm.trans ht')
      exact ⟨_, hbound, h⟩
  have hboth : (∀ s es t, m.ends[i]? = some s → m.trails[i]? = some es →
      m.ends[i + 1]? = some t → ex.BothWays i rel s es t) ↔ ex.BothWays i rel s es t := by
    refine ⟨fun h ↦ h s es t hs hes ht, fun h s' es' t' hs' hes' ht' ↦ ?_⟩
    obtain rfl := Option.some.inj (hs.symm.trans hs')
    obtain rfl := Option.some.inj (hes.symm.trans hes')
    obtain rfl := Option.some.inj (ht.symm.trans ht')
    exact h
  rw [hfollows, hboth]
  by_cases hle : anchor ≤ i
  · rw [decide_eq_true hle]
    exact iff_of_true hwalk (.inl hle)
  · rw [decide_eq_false hle]
    exact (walk_reverse_leads_iff hrel hwalk).trans (or_iff_right hle).symm

/-! ## What a query finds -/

variable (ex) in
/-- Every list follows the pattern. -/
def Follows (m : PatternMatch) (b : Binding) : Prop :=
  ∀ i rel v, ex.q.rels[i]? = some rel → rel.var = some v → rel.hops.isSome = true →
    ex.FollowsTrail m b i v

variable (ex) in
/-- The lists of the relationships to the left of the start can be read both ways. -/
def ReadsBack (anchor : ℕ) (m : PatternMatch) : Prop :=
  ∀ i rel v, ex.q.rels[i]? = some rel → rel.var = some v → rel.hops.isSome = true → i < anchor →
    ∀ s es t, m.ends[i]? = some s → m.trails[i]? = some es → m.ends[i + 1]? = some t →
      ex.BothWays i rel s es t

theorem follows_iff (hm : ex.IsMatch m) (hb : ex.Binds anchor m b)
    (hchain : ex.q.nodes.length = ex.q.rels.length + 1) :
    ex.Follows m b ↔ ex.ReadsBack anchor m := by
  refine forall_congr' fun i ↦ forall_congr' fun rel ↦ forall_congr' fun v ↦ ?_
  refine imp_congr_right fun hrel ↦ imp_congr_right fun hv ↦ imp_congr_right fun hhops ↦ ?_
  rw [followsTrail_iff hm hb hchain hrel hv hhops, ← not_lt, or_iff_not_imp_left, not_not]

/-- What the loop over the matches keeps are some of them, all of which the filter passes. -/
theorem exists_kept [Unicode] {limit : Option ℕ} {rows : List (PatternMatch × Binding)}
    {found : List Binding} {r : List Binding × Bool}
    (h : Dfs.forUntil (ex.keep limit) (rows.map Prod.snd) found = .ok r) :
    ∃ kept : List (PatternMatch × Binding), kept.Sublist rows ∧ r.1 = found ++ kept.map Prod.snd ∧
      ∀ x ∈ kept, ex.passes x.2 = .ok true := by
  induction rows generalizing found with
  | nil =>
    obtain rfl := Except.ok.inj h
    exact ⟨[], .slnil, by simp, by simp⟩
  | cons x rows ih =>
    rw [List.map_cons, Dfs.forUntil_cons] at h
    obtain ⟨⟨found', stop⟩, hkeep, h⟩ := Except.bind_eq_ok.mp h
    obtain ⟨ok, hpass, hkeep⟩ := Except.bind_eq_ok.mp hkeep
    cases ok with
    | false =>
      obtain ⟨rfl, rfl⟩ := Prod.mk.inj (Except.ok.inj hkeep)
      obtain ⟨kept, hsub, heq, hall⟩ := ih h
      exact ⟨kept, hsub.cons _, heq, hall⟩
    | true =>
      obtain ⟨rfl, rfl⟩ := Prod.mk.inj (Except.ok.inj hkeep)
      by_cases hstop : limit.any (· ≤ (found ++ [x.2]).length) = true
      · rw [hstop] at h
        obtain rfl := Except.ok.inj h
        exact ⟨[x], List.singleton_sublist.mpr List.mem_cons_self, rfl, by simpa using hpass⟩
      · rw [Bool.not_eq_true] at hstop
        rw [hstop] at h
        obtain ⟨kept, hsub, heq, hall⟩ := ih h
        exact ⟨x :: kept, hsub.cons_cons _, by rw [heq]; simp,
          List.forall_mem_cons.mpr ⟨hpass, hall⟩⟩

/-- An execution of a query that passes the check. -/
theorem ready_of_prepare {store : GraphStore} {q : MatchQuery} {params : Params}
    (hs : store.EdgesOk) (hq : q.Checked) (h : prepare store q params = .ok ex) :
    ex.Ready ∧ ex.q = q ∧ ex.store = store := by
  obtain ⟨nodeProps, hnode, h⟩ := Except.bind_eq_ok.mp h
  obtain ⟨relProps, hrel, h⟩ := Except.bind_eq_ok.mp h
  obtain rfl := Except.ok.inj h
  exact ⟨⟨hs, (Except.mapM_eq_ok_iff.mp hnode).length_eq.symm,
    (Except.mapM_eq_ok_iff.mp hrel).length_eq.symm, hq.chain⟩, rfl, rfl⟩

theorem anchor_le (hc : ex.q.nodes.length = ex.q.rels.length + 1) {a : Anchor}
    (ha : ex.chooseAnchor = .ok a) : a.anchor ≤ ex.q.rels.length := by
  have hne : ex.q.nodes ≠ [] := by
    intro hnil
    rw [hnil] at hc
    cases hc
  obtain ⟨-, -, n, -, -, -, hn, -⟩ := chooseAnchor_spec hne ha
  have hlt := (List.getElem?_eq_some_iff.mp hn).1
  omega

/-- **What a query finds** are bindings of matches that the filter passes. -/
theorem Ready.exists_accepted [Unicode] (hr : ex.Ready) (hq : ex.q.VarsOk) {a : Anchor}
    (ha : ex.chooseAnchor = .ok a) (limit : Option ℕ) : ∃ k, ∀ fuel, k ≤ fuel → ∀ found,
      ex.findMatches fuel limit = .ok found →
        ∃ ms : List PatternMatch, List.Forall₂ (ex.Accepts a.anchor) ms found := by
  rcases hcand : ex.anchorCandidates a.anchor a.pinned a.indexed with e | candidates
  · refine ⟨0, fun fuel _ found h ↦ ?_⟩
    rw [findMatches, ha, Except.ok_bind, hcand] at h
    cases h
  obtain ⟨rows, hrows, -, hbinds, hsearch⟩ :=
    hr.search_eq (anchor_le hr.chain ha) hq candidates
  obtain ⟨k, hk⟩ := hsearch limit
  refine ⟨k, fun fuel hfuel found h ↦ ?_⟩
  rw [findMatches, ha, Except.ok_bind, hcand, Except.ok_bind, hk fuel hfuel] at h
  obtain ⟨r, hrun, heq⟩ := Except.bind_eq_ok.mp h
  obtain rfl := Except.ok.inj heq
  obtain ⟨kept, hsub, hfound, hall⟩ := exists_kept hrun
  refine ⟨kept.map Prod.fst, ?_⟩
  rw [hfound, List.nil_append]
  refine List.forall₂_map_left_iff.mpr (List.forall₂_map_right_iff.mpr ?_)
  refine List.forall₂_same.mpr fun x hx ↦ ⟨?_, hbinds x (hsub.subset hx), hall x hx⟩
  exact ((hrows x.1).mp (List.mem_map_of_mem (hsub.subset hx))).1

/-- **Lists of edges.** What a query finds are bindings of matches, and the lists in them follow the
pattern exactly if those to the left of the start can be read both ways. -/
theorem follows_iff_of_findMatches [Unicode] (store : GraphStore) (hs : store.EdgesOk)
    (q : MatchQuery) (hq : q.Checked) (params : Params) (ex : Exec)
    (hprepare : prepare store q params = .ok ex) (a : Anchor) (ha : ex.chooseAnchor = .ok a)
    (limit : Option ℕ) : ∃ k, ∀ fuel, k ≤ fuel → ∀ found, ex.findMatches fuel limit = .ok found →
      (∃ ms : List PatternMatch, List.Forall₂ (ex.Accepts a.anchor) ms found) ∧
        ∀ ms : List PatternMatch, List.Forall₂ (ex.Accepts a.anchor) ms found →
          (List.Forall₂ ex.Follows ms found ↔ ∀ m ∈ ms, ex.ReadsBack a.anchor m) := by
  obtain ⟨hr, rfl, -⟩ := ready_of_prepare hs hq hprepare
  obtain ⟨k, hk⟩ := hr.exists_accepted hq.varsOk ha limit
  refine ⟨k, fun fuel hfuel found hfound ↦ ⟨hk fuel hfuel found hfound, fun ms hms ↦ ?_⟩⟩
  clear hfound
  induction hms with
  | nil => simp
  | cons hm _ ih =>
    rw [List.forall₂_cons, ih, List.forall_mem_cons, follows_iff hm.isMatch hm.binds hr.chain]

end Match.Exec

/-! ## A list read from its end -/

namespace GraphRun

open Match Match.Exec

/-- Whom the first person knows through one other, from a node that is pinned. -/
def pathQuery (v : String) (id : Int64) : MatchQuery where
  nodes := [⟨some "a", none, []⟩, ⟨some "b", none, []⟩]
  rels := [⟨some "p", ["KNOWS"], .right, [], some (2, 2)⟩]
  filter := some (.cmp (.id v) .eq (.value (.lit (.int id))))

def pathExec (v : String) (id : Int64) : Exec where
  store := (run knownTxs).store
  q := pathQuery v id
  nodeProps := [[], []]
  relProps := [[]]

theorem checked_pathQuery (v : String) (id : Int64) : (pathQuery v id).Checked := ⟨rfl, _, rfl⟩

theorem edges_knownTxs : (run knownTxs).store.EdgesOk := (ok_run short_knownTxs).consistent.edges

/-- The match that is found, with its list. -/
def pathBinding (es : List EdgeId) : Binding :=
  ((OrdMap.insert ∅ "a" (.node ⟨1⟩)).insert "b" (.node ⟨3⟩)).insert "p" (.path es)

/-- The start is the node that is pinned. -/
theorem chooseAnchor_path (id : Int64) :
    (pathExec "a" id).chooseAnchor = .ok ⟨4, 0, some (.int id), none⟩ ∧
      (pathExec "b" id).chooseAnchor = .ok ⟨4, 1, some (.int id), none⟩ := by
  obtain ⟨indexes, hindexes, -⟩ :=
    GraphStore.propertyIndexesIn_spec (ok_run short_knownTxs).consistent.registry
  have heqs : ∀ v, (pathExec v id).topLevelEqualities = .ok [(.id v, .int id)] := fun v ↦ by
    simp [topLevelEqualities, pathExec, pathQuery, equalitiesOf, equality, Operand.bind]
  have hstore : ∀ v, (pathExec v id).store.propertyIndexesIn = .ok indexes := fun _ ↦ hindexes
  constructor
  · rw [chooseAnchor, heqs, Except.ok_bind, hstore, Except.ok_bind]
    rfl
  · rw [chooseAnchor, heqs, Except.ok_bind, hstore, Except.ok_bind]
    rfl

/-- From the first node the list is found from left to right. -/
theorem findMatches_ahead (fuel : ℕ) :
    @findMatches (pathExec "a" 1) Unicode.ascii (fuel + 20) none =
      .ok [pathBinding [⟨1⟩, ⟨4⟩]] := by
  rw [findMatches, (chooseAnchor_path 1).1, Except.ok_bind]
  rfl

/-- From the second node it is found from right to left. -/
theorem findMatches_back (fuel : ℕ) :
    @findMatches (pathExec "b" 3) Unicode.ascii (fuel + 20) none =
      .ok [pathBinding [⟨4⟩, ⟨1⟩]] := by
  rw [findMatches, (chooseAnchor_path 3).2, Except.ok_bind]
  rfl

theorem follows_iff_of_findMatches_ahead : ∃ fuel ms,
    @findMatches (pathExec "a" 1) Unicode.ascii fuel none = .ok [pathBinding [⟨1⟩, ⟨4⟩]] ∧
      List.Forall₂ (pathExec "a" 1).Follows ms [pathBinding [⟨1⟩, ⟨4⟩]] := by
  obtain ⟨k, hk⟩ := @follows_iff_of_findMatches Unicode.ascii (run knownTxs).store edges_knownTxs
    (pathQuery "a" 1) (checked_pathQuery "a" 1) {} (pathExec "a" 1) rfl _ (chooseAnchor_path 1).1
    none
  obtain ⟨⟨ms, hms⟩, hiff⟩ := hk (k + 20) (by omega) _ (findMatches_ahead k)
  refine ⟨k + 20, ms, findMatches_ahead k, (hiff ms hms).mpr fun m _ i rel v _ _ _ hlt ↦ ?_⟩
  exact absurd hlt (Nat.not_lt_zero i)

/-- **The list is reversed** when the search starts at the right end. -/
theorem not_follows_back : ¬∀ (store : GraphStore), store.EdgesOk → ∀ q : MatchQuery, q.Checked →
    ∀ params ex, prepare store q params = .ok ex → ∀ a, ex.chooseAnchor = .ok a → ∀ limit,
      ∃ k, ∀ fuel, k ≤ fuel → ∀ found, @findMatches ex Unicode.ascii fuel limit = .ok found →
        ∃ ms : List PatternMatch, List.Forall₂ (@Accepts ex Unicode.ascii a.anchor) ms found ∧
          List.Forall₂ ex.Follows ms found := by
  intro h
  let _ : Unicode := Unicode.ascii
  obtain ⟨k, hk⟩ := h (run knownTxs).store edges_knownTxs (pathQuery "b" 3)
    (checked_pathQuery "b" 3) {} (pathExec "b" 3) rfl _ (chooseAnchor_path 3).2 none
  obtain ⟨ms, haccepts, hfollows⟩ := hk (k + 20) (by omega) _ (findMatches_back k)
  obtain ⟨m, ms, hm, -, rfl⟩ := List.forall₂_cons_right_iff.mp haccepts
  have hf := (List.forall₂_cons.mp hfollows).1
  -- the ends of the match are the nodes that its variables are bound to
  have hstart : m.ends[0]? = some ⟨1⟩ := by
    have hget := hm.binds.node 0 _ "a" rfl rfl
    cases hends : m.ends[0]? with
    | none => rw [hends] at hget; cases hget
    | some s => rw [hends] at hget; exact congrArg some (Bound.node.inj (Option.some.inj hget)).symm
  have hlen := hm.isMatch.ends_length
  obtain ⟨t, ht⟩ : ∃ t, m.ends[1]? = some t :=
    ⟨_, List.getElem?_eq_getElem (by rw [hlen]; decide)⟩
  obtain ⟨es, hes, hwalk⟩ := hf 0 _ "p" rfl rfl rfl ⟨1⟩ t hstart ht
  obtain rfl : [⟨4⟩, ⟨1⟩] = es := Bound.path.inj (Option.some.inj hes)
  -- but the edge that is listed first does not start at the first node
  obtain ⟨c, ⟨rel, -, r, hrel, -, hr, -, hjoins, -⟩, -⟩ := hwalk
  obtain rfl := Option.some.inj hrel
  have hsrc : ((run knownTxs).store.getEdgeIn ⟨4⟩).map (·.src) = some ⟨2⟩ := by decide +kernel
  have hread : (run knownTxs).store.getEdgeIn ⟨4⟩ = some r := hr
  rw [hread, Option.map_some, hjoins.1] at hsrc
  exact absurd hsrc (by decide)

end GraphRun
