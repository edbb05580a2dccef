import Bkndb.Lang.MatchAnchor

/-!
# Queries over runs

A query lists the bindings of the matches that its filter passes, each match once, and a limit cuts
the list off. What it starts from does not matter, but for two kinds of queries: one that pins a
node by a number no identifier is looked up by, and one whose index tells values apart that a
comparison does not.

## Main results

* `lists_of_run`: after every run of a store, what a query returns are the bindings of the matches
  that its filter passes, each match once.
* `limit_of_run`: with a limit it returns the beginning of that, and at least one binding if there
  is one.
* `not_lists_float`: a node that is pinned by a float equal to its identifier is not found.

The conditions are that the query passes validation, that its labels and types fit their length
fields, that no relationship lists a type twice, and that the start misses nothing (`Faithful`).
-/

open Graph Trails

/-- A pattern that is a chain, whose labels fit their length field and whose variables pass the
check. -/
structure MatchQuery.Valid (q : MatchQuery) : Prop where
  chain : q.nodes.length = q.rels.length + 1
  labels : ∀ n ∈ q.nodes, ∀ l, n.label = some l → ShortName l
  vars : ∃ vars, q.varKinds = .ok vars

theorem MatchQuery.Valid.varsOk {q : MatchQuery} (h : q.Valid) : q.VarsOk := by
  obtain ⟨vars, hvars⟩ := h.vars
  exact varsOk_of_varKinds hvars

namespace Match.Exec

variable {ex : Exec} {anchor : ℕ} {m : PatternMatch}

/-! ## What an execution is prepared from -/

theorem map_fst_of_bindProps {params : Params} {props : List (String × Operand)}
    {values : List (String × PropValue)} (h : bindProps params props = .ok values) :
    values.map Prod.fst = props.map Prod.fst := by
  have hR := Except.mapM_eq_ok_iff.mp h
  induction hR with
  | nil => rfl
  | cons hstep _ ih =>
    obtain ⟨v, -, heq⟩ := Except.bind_eq_ok.mp hstep
    obtain rfl := Except.ok.inj heq
    rw [List.map_cons, List.map_cons, ih (Except.mapM_eq_ok_iff.mpr ‹_›)]

variable (ex) in
/-- An execution of a valid query over a consistent store. -/
structure Prepared : Prop where
  store : ex.store.Consistent
  query : ex.q.Valid
  nodeProps : List.Forall₂ (fun n props ↦ props.map Prod.fst = n.props.map Prod.fst) ex.q.nodes
    ex.nodeProps
  relProps : ex.relProps.length = ex.q.rels.length

theorem Prepared.ready (h : ex.Prepared) : ex.Ready :=
  ⟨h.store.edges, h.nodeProps.length_eq.symm, h.relProps, h.query.chain⟩

theorem Prepared.map_fst (h : ex.Prepared) {i : ℕ} {n : NodePattern}
    {props : List (String × PropValue)} (hn : ex.q.nodes[i]? = some n)
    (hprops : ex.nodeProps[i]? = some props) : props.map Prod.fst = n.props.map Prod.fst := by
  have hi := (List.getElem?_eq_some_iff.mp hn).1
  have hget := (List.forall₂_iff_get.mp h.nodeProps).2 i hi (h.nodeProps.length_eq ▸ hi)
  rw [List.getElem?_eq_getElem hi] at hn
  rw [List.getElem?_eq_getElem (h.nodeProps.length_eq ▸ hi)] at hprops
  obtain rfl := Option.some.inj hn
  obtain rfl := Option.some.inj hprops
  exact hget

/-- **Preparing a query.** -/
theorem prepared_of_prepare {store : GraphStore} {q : MatchQuery} {params : Params}
    (hs : store.Consistent) (hq : q.Valid) (h : prepare store q params = .ok ex) :
    ex.Prepared ∧ ex.q = q ∧ ex.store = store := by
  obtain ⟨nodeProps, hnode, h⟩ := Except.bind_eq_ok.mp h
  obtain ⟨relProps, hrel, h⟩ := Except.bind_eq_ok.mp h
  obtain rfl := Except.ok.inj h
  have hkeys := (Except.mapM_eq_ok_iff.mp hnode).imp fun _ _ ↦ map_fst_of_bindProps
  exact ⟨⟨hs, hq, hkeys, (Except.mapM_eq_ok_iff.mp hrel).length_eq.symm⟩, rfl, rfl⟩

/-! ## Candidates -/

theorem Binds.unique {b b' : Binding} (hlen : m.trails.length = ex.q.rels.length)
    (h : ex.Binds anchor m b) (h' : ex.Binds anchor m b') : b = b' := by
  refine OrdMap.ext fun v ↦ ?_
  by_cases hnode : ∃ n ∈ ex.q.nodes, n.var = some v
  · obtain ⟨n, hn, hv⟩ := hnode
    obtain ⟨j, hj⟩ := List.mem_iff_getElem?.mp hn
    rw [h.node j n v hj hv, h'.node j n v hj hv]
  by_cases hrel : ∃ rel ∈ ex.q.rels, rel.var = some v
  · obtain ⟨rel, hmem, hv⟩ := hrel
    obtain ⟨i, hi⟩ := List.mem_iff_getElem?.mp hmem
    have hlt := (List.getElem?_eq_some_iff.mp hi).1
    have hes := List.getElem?_eq_getElem (hlen ▸ hlt)
    rw [h.rel i rel v _ hi hv hes, h'.rel i rel v _ hi hv hes]
  · have hnode' : ∀ n ∈ ex.q.nodes, n.var ≠ some v := fun n hn hv ↦ hnode ⟨n, hn, hv⟩
    have hrel' : ∀ rel ∈ ex.q.rels, rel.var ≠ some v := fun rel hmem hv ↦ hrel ⟨rel, hmem, hv⟩
    rw [h.only v hnode' hrel', h'.only v hnode' hrel']

variable (ex) in
/-- **The start misses nothing**: the value that pins a node is an identifier wherever it is equal
to one, and the index finds every node whose property is equal to the value it looks up. -/
structure Faithful (a : Anchor) : Prop where
  pinned : ∀ v, a.pinned = some v → ∀ id rec, ex.store.getNodeIn id = some rec →
    testCmp .eq (.int id.id.toInt64) v = true → ∃ i, v = .int i ∧ 0 ≤ i
  indexed : ∀ p v, a.indexed = some (p, v) → ∀ id rec, ex.store.getNodeIn id = some rec →
    testCmp .eq ((rec.properties.get? p).getD .null) v = true →
      PropValue.eqvOption (rec.properties.get? p) (some v) = true

variable [Unicode]

variable (ex) in
/-- A match that the filter passes, with its binding. -/
structure Accepts (anchor : ℕ) (m : PatternMatch) (b : Binding) : Prop where
  isMatch : ex.IsMatch m
  binds : ex.Binds anchor m b
  passes : ex.passes b = .ok true

omit [Unicode] in
theorem anchorCandidates_pinned (i : ℕ) (v : PropValue) (indexed : Option (String × PropValue)) :
    ∃ candidates, ex.anchorCandidates i (some v) indexed = .ok candidates ∧ candidates.Nodup ∧
      ∀ n, v = .int n → 0 ≤ n → ⟨n.toUInt64⟩ ∈ candidates := by
  cases v with
  | int n =>
    refine ⟨if 0 ≤ n then [⟨n.toUInt64⟩] else [], rfl, ?_, ?_⟩
    · split_ifs <;> simp
    · intro n' heq hn
      obtain rfl := PropValue.int.inj heq
      rw [if_pos hn]
      exact List.mem_singleton_self _
  | _ => exact ⟨[], rfl, .nil, fun n h ↦ by cases h⟩

omit [Unicode] in
theorem eq_of_testCmp_id {id : NodeId} {n : Int64}
    (h : testCmp .eq (.int id.id.toInt64) (.int n) = true) : id = ⟨n.toUInt64⟩ := by
  rcases testCmp_eq.mp h with ⟨hnull, -⟩ | heq
  · cases hnull
  · rw [PropValue.compareValues, Option.some.injEq, cmp_eq_eq_iff] at heq
    rw [← Int64.toInt_inj.mp heq]
    rfl

variable (ex) in
/-- A node that a match binds a node of the pattern to. -/
structure Meets (n : NodePattern) (props : List (String × PropValue)) (b : Binding) (id : NodeId)
    (rec : NodeRecord) : Prop where
  node : ex.store.getNodeIn id = some rec
  label : ∀ l, n.label = some l → rec.label = l
  props : HasProps props rec.properties
  bound : ∀ x, n.var = some x → b.get? x = some (.node id)

variable {n : NodePattern} {props : List (String × PropValue)} {b : Binding} {id : NodeId}
  {rec : NodeRecord} {eqs : List (GExpr × PropValue)}

theorem Accepts.meets (hm : ex.Accepts anchor m b) (hn : ex.q.nodes[anchor]? = some n)
    (hprops : ex.nodeProps[anchor]? = some props) :
    ∃ id rec, m.ends[anchor]? = some id ∧ ex.Meets n props b id rec := by
  have hlt := (List.getElem?_eq_some_iff.mp hn).1
  have hid := List.getElem?_eq_getElem (l := m.ends) (i := anchor)
    (by rwa [hm.isMatch.ends_length])
  obtain ⟨n', props', rec, hn', hprops', hrec, hlabel, hhas⟩ := hm.isMatch.node _ _ hid
  obtain rfl := Option.some.inj (hn.symm.trans hn')
  obtain rfl := Option.some.inj (hprops.symm.trans hprops')
  refine ⟨_, rec, hid, hrec, hlabel, hhas, fun x hx ↦ ?_⟩
  rw [hm.binds.node _ n x hn hx, hid]
  rfl

theorem Meets.pinned (hm : ex.Meets n props b id rec) (heqs : ex.topLevelEqualities = .ok eqs)
    (hpass : ex.passes b = .ok true) {v : PropValue} (h : pinnedBy eqs n = some v) :
    testCmp .eq (.int id.id.toInt64) v = true := by
  obtain ⟨x, hx, hmem⟩ := mem_of_pinnedBy h
  obtain ⟨y, hy, htest⟩ := topLevelEqualities_sound heqs hpass hmem
  rw [eval, hm.bound x hx] at hy
  obtain rfl := Except.ok.inj hy
  exact htest

theorem Meets.indexed (hm : ex.Meets n props b id rec) (heqs : ex.topLevelEqualities = .ok eqs)
    (hpass : ex.passes b = .ok true) (hkeys : props.map Prod.fst = n.props.map Prod.fst)
    {indexes : List (String × String)} {p : String} {v : PropValue}
    (h : indexedBy eqs indexes n props = some (p, v)) :
    testCmp .eq ((rec.properties.get? p).getD .null) v = true := by
  obtain ⟨-, -, -, hmem | ⟨x, hx, hmem⟩⟩ := mem_of_indexedBy hkeys h
  · obtain ⟨w, hw, hcompare⟩ := hm.props _ hmem
    rw [hw]
    exact testCmp_eq.mpr (.inr hcompare)
  · obtain ⟨y, hy, htest⟩ := topLevelEqualities_sound heqs hpass hmem
    have hprops : ex.propsOf b x = some rec.properties := by
      simp [propsOf, hm.bound x hx, hm.node]
    rw [eval.eq_def] at hy
    simp only [hprops] at hy
    obtain rfl := Except.ok.inj hy
    simpa [PropValue.getPath] using htest

/-- **The candidates**: each once, and the anchor of every accepted match among them. -/
theorem Prepared.exists_candidates (h : ex.Prepared) {a : Anchor} (ha : ex.chooseAnchor = .ok a) :
    a.anchor ≤ ex.q.rels.length ∧ ∃ candidates,
      ex.anchorCandidates a.anchor a.pinned a.indexed = .ok candidates ∧ candidates.Nodup ∧
      (ex.Faithful a → ∀ m b, ex.Accepts a.anchor m b →
        ∃ id ∈ candidates, m.ends[a.anchor]? = some id) := by
  have hchain := h.query.chain
  have hne : ex.q.nodes ≠ [] := by
    intro hnil
    rw [hnil] at hchain
    cases hchain
  obtain ⟨eqs, indexes, n, props, heqs, hindexes, hn, hprops, hpinned, hindexed⟩ :=
    chooseAnchor_spec hne ha
  have hlt := (List.getElem?_eq_some_iff.mp hn).1
  refine ⟨by omega, ?_⟩
  cases hpin : a.pinned with
  | some v =>
    obtain ⟨candidates, hcand, hnodup, hmem⟩ := anchorCandidates_pinned a.anchor v a.indexed
    refine ⟨candidates, hcand, hnodup, fun hf m b hm ↦ ?_⟩
    obtain ⟨id, rec, hid, hmeets⟩ := hm.meets hn hprops
    have htest := hmeets.pinned heqs hm.passes (hpinned ▸ hpin)
    obtain ⟨i, rfl, hi⟩ := hf.pinned v hpin id rec hmeets.node htest
    rw [eq_of_testCmp_id htest] at hid
    exact ⟨_, hmem i rfl hi, hid⟩
  | none =>
    rw [anchorCandidates, nth_eq_ok.mpr hn, Except.ok_bind]
    cases hl : n.label with
    | none =>
      obtain ⟨l, hscan, hsorted, hmem⟩ := GraphStore.scanAllNodes_spec h.store.labels
      refine ⟨l.map Prod.fst, by rw [hscan]; rfl, ?_, fun _ m b hm ↦ ?_⟩
      · exact List.pairwise_map.mpr (hsorted.imp fun hlt heq ↦ by
          rw [heq] at hlt
          exact lt_irrefl _ hlt)
      · obtain ⟨id, rec, hid, hmeets⟩ := hm.meets hn hprops
        exact ⟨id, List.mem_map.mpr ⟨(id, rec), (hmem id rec).mpr hmeets.node, rfl⟩, hid⟩
    | some l =>
      cases hidx : a.indexed with
      | none =>
        obtain ⟨ids, hids, hby⟩ := GraphStore.nodesByLabelIn_spec h.store.labels
          (.inl (h.query.labels n (List.mem_of_getElem? hn) l hl))
        refine ⟨ids, hids, hby.sorted.imp fun hlt heq ↦ (heq ▸ hlt).false, fun _ m b hm ↦ ?_⟩
        obtain ⟨id, rec, hid, hmeets⟩ := hm.meets hn hprops
        exact ⟨id, (hby.mem id).mpr ⟨rec, hmeets.node, hmeets.label l hl⟩, hid⟩
      | some pv =>
        obtain ⟨p, v⟩ := pv
        have hkeys : props.map Prod.fst = n.props.map Prod.fst := h.map_fst hn hprops
        rw [hindexed] at hidx
        obtain ⟨l', hl', hmem, -⟩ := mem_of_indexedBy hkeys hidx
        obtain rfl := Option.some.inj (hl.symm.trans hl')
        obtain ⟨pairs, hpairs, hregistered⟩ := GraphStore.propertyIndexesIn_spec h.store.registry
        obtain rfl := Except.ok.inj (hindexes.symm.trans hpairs)
        obtain ⟨ids, hids, hnodup, hfound⟩ := GraphStore.findNodesIn_complete h.store.labels
          h.store.props ((hregistered l p).mp hmem) v
        refine ⟨ids, hids, hnodup, fun hf m b hm ↦ ?_⟩
        obtain ⟨id, rec, hid, hmeets⟩ := hm.meets hn hprops
        refine ⟨id, hfound id rec hmeets.node (hmeets.label l hl) ?_, hid⟩
        exact hf.indexed p v (hindexed.trans hidx) id rec hmeets.node
          (hmeets.indexed heqs hm.passes hkeys hidx)

/-! ## The filter and the limit

The loop over the matches tests the filter and stops when it has enough. Without a limit it sees
all of them, so if it returns at all, the filter could be evaluated on every match. -/

variable {bs found : List Binding} {p : Binding → Bool}

theorem keep_of_not_passes {limit : Option ℕ} (h : ex.passes b = .ok false) :
    ex.keep limit found b = .ok (found, false) := by
  rw [keep, h]
  rfl

theorem keep_of_passes {limit : Option ℕ} (h : ex.passes b = .ok true) :
    ex.keep limit found b = .ok (found ++ [b], limit.any (· ≤ (found ++ [b]).length)) := by
  rw [keep, h]
  rfl

theorem passes_of_forUntil {r : List Binding × Bool}
    (h : Dfs.forUntil (ex.keep none) bs found = .ok r) : ∀ b ∈ bs, ∃ ok, ex.passes b = .ok ok := by
  induction bs generalizing found with
  | nil => simp
  | cons b bs ih =>
    rw [Dfs.forUntil_cons, keep] at h
    obtain ⟨x, hx, h⟩ := Except.bind_eq_ok.mp h
    obtain ⟨ok, hok, hx⟩ := Except.bind_eq_ok.mp hx
    refine List.forall_mem_cons.mpr ⟨⟨ok, hok⟩, ?_⟩
    cases ok <;> obtain rfl := Except.ok.inj hx <;> exact ih h

/-- **Without a limit** the bindings that the filter passes are found. -/
theorem forUntil_keep_none (hp : ∀ b ∈ bs, ex.passes b = .ok (p b)) :
    Dfs.forUntil (ex.keep none) bs found = .ok (found ++ bs.filter p, false) := by
  induction bs generalizing found with
  | nil => simp [Dfs.forUntil]
  | cons b bs ih =>
    obtain ⟨hb, hp⟩ := List.forall_mem_cons.mp hp
    rw [Dfs.forUntil_cons]
    cases hpass : p b with
    | false =>
      rw [keep_of_not_passes (hb.trans (congrArg _ hpass)), Except.ok_bind,
        List.filter_cons_of_neg (by simp [hpass])]
      exact ih hp
    | true =>
      rw [keep_of_passes (hb.trans (congrArg _ hpass)), Except.ok_bind,
        List.filter_cons_of_pos hpass, List.append_cons found b (bs.filter p)]
      exact ih hp

/-- **With a limit** the first of them are found, but at least one. -/
theorem forUntil_keep_some {limit : ℕ} (hp : ∀ b ∈ bs, ex.passes b = .ok (p b))
    (hlt : found.length < max limit 1) : ∃ stop, Dfs.forUntil (ex.keep (some limit)) bs found =
      .ok ((found ++ bs.filter p).take (max limit 1), stop) := by
  induction bs generalizing found with
  | nil =>
    refine ⟨false, ?_⟩
    rw [List.filter_nil, List.append_nil, List.take_of_length_le hlt.le]
    rfl
  | cons b bs ih =>
    obtain ⟨hb, hp⟩ := List.forall_mem_cons.mp hp
    rw [Dfs.forUntil_cons]
    cases hpass : p b with
    | false =>
      rw [keep_of_not_passes (hb.trans (congrArg _ hpass)), Except.ok_bind,
        List.filter_cons_of_neg (by simp [hpass])]
      exact ih hp hlt
    | true =>
      rw [keep_of_passes (hb.trans (congrArg _ hpass)), Except.ok_bind,
        List.filter_cons_of_pos hpass, List.append_cons found b (bs.filter p), Option.any_some]
      by_cases hstop : limit ≤ (found ++ [b]).length
      · -- this is the last one
        have hlen : max limit 1 = (found ++ [b]).length := by
          simp only [List.length_append, List.length_singleton] at hstop ⊢
          omega
        rw [decide_eq_true hstop, hlen, List.take_left]
        exact ⟨true, rfl⟩
      · rw [decide_eq_false hstop]
        exact ih hp (by omega)

/-! ## What a query lists -/

variable (ex) in
/-- **What a query lists**: the bindings of the accepted matches, each match once. -/
def Lists (anchor : ℕ) (found : List Binding) : Prop :=
  ∃ ms : List PatternMatch, ms.Nodup ∧ List.Forall₂ (ex.Binds anchor) ms found ∧
    ∀ m, m ∈ ms ↔ ∃ b, ex.Accepts anchor m b

theorem Prepared.exists_rows (h : ex.Prepared) {a : Anchor} (ha : ex.chooseAnchor = .ok a) :
    ∃ rows : List (PatternMatch × Binding),
      ((∀ rel ∈ ex.q.rels, rel.Distinct) → (rows.map Prod.fst).Nodup) ∧
      (∀ x ∈ rows, ex.IsMatch x.1 ∧ ex.Binds a.anchor x.1 x.2) ∧
      (ex.Faithful a → ∀ m b, ex.Accepts a.anchor m b → m ∈ rows.map Prod.fst) ∧
      ∀ limit, ∃ k, ∀ fuel, k ≤ fuel → ex.findMatches fuel limit =
        Prod.fst <$> Dfs.forUntil (ex.keep limit) (rows.map Prod.snd) [] := by
  obtain ⟨hle, candidates, hcand, hnodup, hfaithful⟩ := h.exists_candidates ha
  obtain ⟨rows, hrows, hdistinct, hbinds, hsearch⟩ :=
    h.ready.search_eq hle h.query.varsOk candidates
  refine ⟨rows, fun hrels ↦ hdistinct hrels hnodup, fun x hx ↦ ?_, fun hf m b hm ↦ ?_,
    fun limit ↦ ?_⟩
  · exact ⟨((hrows x.1).mp (List.mem_map_of_mem hx)).1, hbinds x hx⟩
  · exact (hrows m).mpr ⟨hm.isMatch, hfaithful hf m b hm⟩
  · obtain ⟨k, hk⟩ := hsearch limit
    refine ⟨k, fun fuel hfuel ↦ ?_⟩
    rw [findMatches, ha, Except.ok_bind, hcand, Except.ok_bind, hk fuel hfuel]
    rfl

theorem lists_of_rows {rows : List (PatternMatch × Binding)} (hnodup : (rows.map Prod.fst).Nodup)
    (hrows : ∀ x ∈ rows, ex.IsMatch x.1 ∧ ex.Binds anchor x.1 x.2)
    (hall : ∀ m b, ex.Accepts anchor m b → m ∈ rows.map Prod.fst)
    (hp : ∀ b ∈ rows.map Prod.snd, ex.passes b = .ok (p b)) :
    ex.Lists anchor ((rows.map Prod.snd).filter p) := by
  refine ⟨(rows.filter fun x ↦ p x.2).map Prod.fst, ?_, ?_, fun m ↦ ⟨fun hm ↦ ?_, ?_⟩⟩
  · exact hnodup.sublist (List.filter_sublist.map _)
  · rw [List.filter_map]
    refine List.forall₂_map_left_iff.mpr (List.forall₂_map_right_iff.mpr ?_)
    exact List.forall₂_same.mpr fun x hx ↦ (hrows x (List.mem_filter.mp hx).1).2
  · obtain ⟨x, hx, rfl⟩ := List.mem_map.mp hm
    obtain ⟨hx, hpass⟩ := List.mem_filter.mp hx
    refine ⟨x.2, (hrows x hx).1, (hrows x hx).2, ?_⟩
    rw [hp x.2 (List.mem_map_of_mem hx), hpass]
  · rintro ⟨b, hm⟩
    obtain ⟨x, hx, rfl⟩ := List.mem_map.mp (hall m b hm)
    obtain rfl := (hrows x hx).2.unique hm.isMatch.trails_length hm.binds
    refine List.mem_map_of_mem (List.mem_filter.mpr ⟨hx, ?_⟩)
    exact Except.ok.inj ((hp x.2 (List.mem_map_of_mem hx)).symm.trans hm.passes)

/-- **Without a limit** a query lists the accepted matches, and it returns if the filter does. -/
theorem Prepared.lists (h : ex.Prepared) (hdistinct : ∀ rel ∈ ex.q.rels, rel.Distinct)
    {a : Anchor} (ha : ex.chooseAnchor = .ok a) (hf : ex.Faithful a) : ∃ k, ∀ fuel, k ≤ fuel →
      (∀ found, ex.findMatches fuel none = .ok found → ex.Lists a.anchor found) ∧
      ((∀ m b, ex.IsMatch m → ex.Binds a.anchor m b → ∃ ok, ex.passes b = .ok ok) →
        ∃ found, ex.findMatches fuel none = .ok found) := by
  obtain ⟨rows, hnodup, hrows, hall, hsearch⟩ := h.exists_rows ha
  obtain ⟨k, hk⟩ := hsearch none
  refine ⟨k, fun fuel hfuel ↦ ⟨fun found hfound ↦ ?_, fun hpasses ↦ ?_⟩⟩
  · rw [hk fuel hfuel, Except.map_eq_ok] at hfound
    obtain ⟨r, hr, rfl⟩ := hfound
    have hex := passes_of_forUntil hr
    choose! p hp using hex
    rw [forUntil_keep_none hp, List.nil_append] at hr
    obtain rfl := Except.ok.inj hr
    exact lists_of_rows (hnodup hdistinct) hrows (hall hf) hp
  · have hex : ∀ b ∈ rows.map Prod.snd, ∃ ok, ex.passes b = .ok ok := by
      intro b hb
      obtain ⟨x, hx, rfl⟩ := List.mem_map.mp hb
      exact hpasses x.1 x.2 (hrows x hx).1 (hrows x hx).2
    choose! p hp using hex
    exact ⟨_, by rw [hk fuel hfuel, forUntil_keep_none hp]; rfl⟩

/-- **A limit** cuts off what comes later. -/
theorem Prepared.take (h : ex.Prepared) {a : Anchor} (ha : ex.chooseAnchor = .ok a) (limit : ℕ) :
    ∃ k, ∀ fuel, k ≤ fuel → ∀ found, ex.findMatches fuel none = .ok found →
      ex.findMatches fuel (some limit) = .ok (found.take (max limit 1)) := by
  obtain ⟨rows, -, -, -, hsearch⟩ := h.exists_rows ha
  obtain ⟨k, hk⟩ := hsearch none
  obtain ⟨k', hk'⟩ := hsearch (some limit)
  refine ⟨max k k', fun fuel hfuel found hfound ↦ ?_⟩
  rw [hk fuel (by omega), Except.map_eq_ok] at hfound
  obtain ⟨r, hr, rfl⟩ := hfound
  have hex := passes_of_forUntil hr
  choose! p hp using hex
  rw [forUntil_keep_none hp, List.nil_append] at hr
  obtain rfl := Except.ok.inj hr
  have hlt : ([] : List Binding).length < max limit 1 := by simp
  obtain ⟨stop, hstop⟩ := forUntil_keep_some hp hlt
  rw [hk' fuel (by omega), hstop]
  rfl

end Match.Exec

namespace GraphRun

open Match Match.Exec

variable {q : MatchQuery} {params : Params} {ex : Exec} {a : Anchor}

/-- Four people, the first of whom knows the others and the second the third. -/
def knownTxs : List (List GraphOp) :=
  [List.replicate 4 (.createNode "Person" ∅),
    [.createEdge ⟨1⟩ "KNOWS" ⟨2⟩ ∅, .createEdge ⟨1⟩ "KNOWS" ⟨3⟩ ∅, .createEdge ⟨1⟩ "KNOWS" ⟨4⟩ ∅,
      .createEdge ⟨2⟩ "KNOWS" ⟨3⟩ ∅]]

/-- Whom the first of them knows. -/
def knownQuery : MatchQuery where
  nodes := [⟨some "a", some "Person", []⟩, ⟨some "b", none, []⟩]
  rels := [⟨some "r", ["KNOWS"], .right, [], none⟩]
  filter := some (.cmp (.id "a") .eq (.value (.lit (.int 1))))

/-- The execution of the query. -/
def knownExec : Exec where
  store := (run knownTxs).store
  q := knownQuery
  nodeProps := [[], []]
  relProps := [[]]

theorem short_knownTxs : ∀ ops ∈ knownTxs, ∀ op ∈ ops, op.ShortEdges := by
  have hknows : ShortType "KNOWS" := by decide +kernel
  simp [knownTxs, GraphOp.ShortEdges, hknows]

theorem valid_knownQuery : knownQuery.Valid := by
  have hperson : ShortName "Person" := show "Person".utf8.length ≤ 65535 by decide +kernel
  exact ⟨rfl, by simp [knownQuery, hperson], _, rfl⟩

theorem chooseAnchor_known : knownExec.chooseAnchor = .ok ⟨4, 0, some (.int 1), none⟩ := by
  obtain ⟨indexes, hindexes, -⟩ :=
    GraphStore.propertyIndexesIn_spec (ok_run short_knownTxs).consistent.registry
  have heqs : knownExec.topLevelEqualities = .ok [(.id "a", .int 1)] := by
    simp [topLevelEqualities, knownExec, knownQuery, equalitiesOf, equality, Operand.bind]
  rw [chooseAnchor, heqs, Except.ok_bind, show knownExec.store = (run knownTxs).store from rfl,
    hindexes, Except.ok_bind]
  rfl

/-- The three matches, in the order in which they are found. -/
def knownFound : List Binding :=
  [(⟨2⟩, ⟨1⟩), (⟨3⟩, ⟨2⟩), (⟨4⟩, ⟨3⟩)].map fun (b, r) ↦
    ((OrdMap.insert ∅ "a" (.node ⟨1⟩)).insert "b" (.node b)).insert "r" (.rel r)

/-- They are found in twenty iterations. -/
theorem findMatches_known (fuel : ℕ) :
    @findMatches knownExec Unicode.ascii (fuel + 20) none = .ok knownFound := by
  rw [findMatches, chooseAnchor_known, Except.ok_bind]
  rfl

/-- A person whose identifier is compared with a float. -/
def floatExec : Exec where
  store := (run knownTxs).store
  q := ⟨[⟨some "a", none, []⟩], [], some (.cmp (.id "a") .eq (.value (.lit (.float (.ofInt64 1)))))⟩
  nodeProps := [[]]

private theorem chooseAnchor_float :
    floatExec.chooseAnchor = .ok ⟨4, 0, some (.float (.ofInt64 1)), none⟩ := by
  obtain ⟨indexes, hindexes, -⟩ :=
    GraphStore.propertyIndexesIn_spec (ok_run short_knownTxs).consistent.registry
  have heqs : floatExec.topLevelEqualities = .ok [(.id "a", .float (.ofInt64 1))] := by
    simp [topLevelEqualities, floatExec, equalitiesOf, equality, Operand.bind]
  rw [chooseAnchor, heqs, Except.ok_bind, show floatExec.store = (run knownTxs).store from rfl,
    hindexes, Except.ok_bind]
  rfl

private theorem accepts_float : @Accepts floatExec Unicode.ascii 0 ⟨[⟨1⟩], []⟩
    (OrdMap.insert ∅ "a" (.node ⟨1⟩)) := by
  let _ : Unicode := Unicode.ascii
  have hsome : ((run knownTxs).store.getNodeIn ⟨1⟩).isSome = true := by decide +kernel
  obtain ⟨rec, hrec⟩ := Option.isSome_iff_exists.mp hsome
  have htest : testCmp .eq (.int 1) (.float (.ofInt64 1)) = true := by decide +kernel
  refine ⟨⟨rfl, rfl, fun i id hid ↦ ?_, fun i a es c _ hes ↦ ?_, List.nodup_nil, ?_⟩, ?_, ?_⟩
  · obtain ⟨hi, rfl⟩ := List.getElem?_eq_some_iff.mp hid
    obtain rfl : i = 0 := by simpa using hi
    refine ⟨_, [], rec, rfl, rfl, hrec, fun l hl ↦ ?_, fun p hp ↦ ?_⟩
    · cases hl
    · cases hp
  · cases hes
  · intro i j n n' v hi hj _ _
    have hi := (List.getElem?_eq_some_iff.mp hi).1
    have hj := (List.getElem?_eq_some_iff.mp hj).1
    obtain rfl : i = 0 := by simpa [floatExec] using hi
    obtain rfl : j = 0 := by simpa [floatExec] using hj
    rfl
  · refine ⟨fun j n v hn hv ↦ ?_, fun i rel v es hrel _ _ ↦ ?_, fun v hnode _ ↦ ?_⟩
    · obtain ⟨hj, rfl⟩ := List.getElem?_eq_some_iff.mp hn
      obtain rfl : j = 0 := by simpa [floatExec] using hj
      obtain rfl : "a" = v := Option.some.inj hv
      simp
    · cases hrel
    · have hne : v ≠ "a" := fun h ↦ hnode _ List.mem_cons_self (h ▸ rfl)
      rw [OrdMap.get?_insert, if_neg hne]
      rfl
  · simp only [passes, floatExec, test, eval, OrdMap.get?_insert_self, Operand.bind, Except.ok_bind]
    exact congrArg _ htest

/-- **A node that a float pins is not found**, although the filter passes it. -/
theorem not_lists_float : ¬∀ (ex : Exec) (a : Anchor), ex.Prepared → ex.chooseAnchor = .ok a →
    ∃ k, ∀ fuel, k ≤ fuel → ∀ found, @findMatches ex Unicode.ascii fuel none = .ok found →
      @Lists ex Unicode.ascii a.anchor found := by
  intro h
  have hprepared : floatExec.Prepared :=
    ⟨(ok_run short_knownTxs).consistent, ⟨rfl, by simp [floatExec], _, rfl⟩, .cons rfl .nil, rfl⟩
  obtain ⟨k, hk⟩ := h floatExec _ hprepared chooseAnchor_float
  have hfound : @findMatches floatExec Unicode.ascii k none = .ok [] := by
    rw [findMatches, chooseAnchor_float]
    rfl
  obtain ⟨ms, -, hbinds, hms⟩ := hk k le_rfl [] hfound
  obtain rfl := List.forall₂_nil_right_iff.mp hbinds
  cases (hms _).mpr ⟨_, accepts_float⟩

/-! ## Limits

The test for the limit comes after a binding was kept. A limit of zero therefore still finds one
match, which the projection drops. -/

/-- **A limit over runs.** A query with a limit returns the beginning of what it returns without:
the search stops at the limit, but not before it has found one match. -/
theorem limit_of_run [Unicode] (txs : List (List GraphOp))
    (hshort : ∀ ops ∈ txs, ∀ op ∈ ops, op.ShortEdges) (hq : q.Valid)
    (hprepare : prepare (run txs).store q params = .ok ex) (ha : ex.chooseAnchor = .ok a)
    (limit : ℕ) : ∃ k, ∀ fuel, k ≤ fuel → ∀ found, ex.findMatches fuel none = .ok found →
      ex.findMatches fuel (some limit) = .ok (found.take (max limit 1)) := by
  obtain ⟨hprepared, rfl, -⟩ := prepared_of_prepare (ok_run hshort).consistent hq hprepare
  exact hprepared.take ha limit

theorem limit_of_run_known : ∃ fuel,
    @findMatches knownExec Unicode.ascii fuel none = .ok knownFound ∧ knownFound.length = 3 ∧
      @findMatches knownExec Unicode.ascii fuel (some 2) = .ok (knownFound.take 2) := by
  obtain ⟨k, hk⟩ := @limit_of_run knownQuery {} knownExec _ Unicode.ascii knownTxs short_knownTxs
    valid_knownQuery rfl chooseAnchor_known 2
  exact ⟨k + 20, findMatches_known k, rfl, hk _ (by omega) _ (findMatches_known k)⟩

end GraphRun
