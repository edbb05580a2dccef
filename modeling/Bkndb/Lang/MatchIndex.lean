import Bkndb.Lang.MatchFind

/-!
# Indexes and queries

An index changes where the search for a query starts, and so the order of what it returns, but not
what it returns: over a graph with other indexes the accepted matches are the same, and as long as
no variable stands for a whole path their bindings do not depend on the start.

## What stays the same

Operations that manage indexes write neither nodes nor edges (`SameGraph`), and a match, its
binding and the filter are about these alone. So the accepted matches before and after are the
same, and two lists of them are permutations of one another when the start does not show in a
binding (`NoPaths`).

Whether the query returns at all may change: with an index the filter is tested on fewer matches,
and one on which it cannot be evaluated may not be among them.
-/

open Graph Trails

namespace GraphStore

variable {s s' t : GraphStore} {label property : String}

/-- Two stores with the same nodes and the same edges. -/
structure SameGraph (s s' : GraphStore) : Prop where
  nodes : s'.nodes = s.nodes
  edges : s'.edges = s.edges

theorem SameGraph.rfl : SameGraph s s := ⟨Eq.refl _, Eq.refl _⟩

theorem SameGraph.trans (h : SameGraph s s') (h' : SameGraph s' t) : SameGraph s t :=
  ⟨h'.nodes.trans h.nodes, h'.edges.trans h.edges⟩

theorem SameGraph.getNodeIn (h : SameGraph s s') (id : NodeId) :
    s'.getNodeIn id = s.getNodeIn id := by
  rw [GraphStore.getNodeIn, GraphStore.getNodeIn, h.nodes]

theorem SameGraph.getEdgeIn (h : SameGraph s s') (id : EdgeId) :
    s'.getEdgeIn id = s.getEdgeIn id := by
  rw [GraphStore.getEdgeIn, GraphStore.getEdgeIn, h.edges]

theorem sameGraph_backfillProperty (h : s.backfillProperty label property = .ok s') :
    SameGraph s s' := by
  obtain ⟨pre, -, h⟩ := Except.bind_eq_ok.mp h
  obtain ⟨ids, -, h⟩ := Except.bind_eq_ok.mp h
  refine Except.foldlM_invariant (SameGraph s) h ⟨rfl, rfl⟩ fun id _ t t' ht hstep ↦ ?_
  obtain ⟨entry, -, hstep⟩ := Except.bind_eq_ok.mp hstep
  obtain rfl := Except.ok.inj hstep
  cases entry <;> exact ⟨ht.nodes, ht.edges⟩

theorem sameGraph_createPropertyIndexIn {b : Bool}
    (h : s.createPropertyIndexIn label property = .ok (s', b)) : SameGraph s s' := by
  obtain ⟨reg, -, h⟩ := Except.bind_eq_ok.mp h
  split_ifs at h
  · obtain ⟨rfl, -⟩ := Prod.mk.inj (Except.ok.inj h)
    exact .rfl
  · obtain ⟨t, ht, h⟩ := Except.bind_eq_ok.mp h
    obtain ⟨rfl, -⟩ := Prod.mk.inj (Except.ok.inj h)
    have hfill := sameGraph_backfillProperty ht
    exact ⟨hfill.nodes, hfill.edges⟩

theorem sameGraph_dropPropertyIndexIn {b : Bool}
    (h : s.dropPropertyIndexIn label property = .ok (s', b)) : SameGraph s s' := by
  obtain ⟨reg, -, h⟩ := Except.bind_eq_ok.mp h
  split_ifs at h
  · obtain ⟨rfl, -⟩ := Prod.mk.inj (Except.ok.inj h)
    exact .rfl
  · obtain ⟨pre, -, h⟩ := Except.bind_eq_ok.mp h
    obtain ⟨rfl, -⟩ := Prod.mk.inj (Except.ok.inj h)
    exact ⟨rfl, rfl⟩

theorem sameGraph_rebuildIndexesIn (h : s.rebuildIndexesIn = .ok s') : SameGraph s s' := by
  obtain ⟨nodes, -, h⟩ := Except.bind_eq_ok.mp h
  obtain ⟨t, ht, h⟩ := Except.bind_eq_ok.mp h
  obtain ⟨pairs, -, h⟩ := Except.bind_eq_ok.mp h
  have hlabels : SameGraph s t := by
    refine Except.foldlM_invariant (SameGraph s) ht ⟨rfl, rfl⟩ fun e _ t t' ht hstep ↦ ?_
    obtain ⟨key, -, hstep⟩ := Except.bind_eq_ok.mp hstep
    obtain rfl := Except.ok.inj hstep
    exact ⟨ht.nodes, ht.edges⟩
  refine Except.foldlM_invariant (SameGraph s) h ⟨hlabels.nodes, hlabels.edges⟩ ?_
  intro e _ t t' ht hstep
  exact ht.trans (sameGraph_backfillProperty hstep)

end GraphStore

/-- An operation on the indexes. -/
def GraphOp.Indexing : GraphOp → Prop
  | createPropertyIndex _ _ | dropPropertyIndex _ _ | rebuildIndexes => True
  | _ => False

theorem GraphOp.Indexing.shortEdges {op : GraphOp} (h : op.Indexing) : op.ShortEdges := by
  cases op with
  | createPropertyIndex | dropPropertyIndex | rebuildIndexes => trivial
  | _ => exact h.elim

namespace GraphRun

open GraphStore

/-- A transaction that manages indexes leaves the graph as it is. -/
theorem sameGraph_transact {r : GraphRun} {ops : List GraphOp} (hops : ∀ op ∈ ops, op.Indexing) :
    SameGraph r.store (r.transact ops).store := by
  rw [transact]
  cases h : ops.foldlM apply r with
  | error e => exact .rfl
  | ok r' =>
    refine Except.foldlM_invariant (fun r' : GraphRun ↦ SameGraph r.store r'.store) h .rfl
      fun op hop t t' ht hstep ↦ ht.trans ?_
    have hindexing := hops op hop
    cases op with
    | createPropertyIndex label property =>
      obtain ⟨⟨store, b⟩, hstore, hstep⟩ := Except.bind_eq_ok.mp hstep
      obtain rfl := Except.ok.inj hstep
      exact sameGraph_createPropertyIndexIn hstore
    | dropPropertyIndex label property =>
      obtain ⟨⟨store, b⟩, hstore, hstep⟩ := Except.bind_eq_ok.mp hstep
      obtain rfl := Except.ok.inj hstep
      exact sameGraph_dropPropertyIndexIn hstore
    | rebuildIndexes =>
      obtain ⟨store, hstore, hstep⟩ := Except.bind_eq_ok.mp hstep
      obtain rfl := Except.ok.inj hstep
      exact sameGraph_rebuildIndexesIn hstore
    | _ => exact hindexing.elim

end GraphRun

namespace Match.Exec

variable {ex : Exec} {store : GraphStore} {anchor anchor' : ℕ} {m : PatternMatch} {b : Binding}

/-! ## The same matches -/

variable (ex) in
/-- The execution over another store. -/
def withStore (store : GraphStore) : Exec := { ex with store }

theorem leads_withStore (h : ex.store.SameGraph store) (i : ℕ) (forward : Bool) :
    (ex.withStore store).Leads i forward = ex.Leads i forward := by
  funext a e c
  simp only [Leads, withStore, h.getEdgeIn]

theorem nodeFits_withStore (h : ex.store.SameGraph store) (i : ℕ) (id : NodeId) :
    (ex.withStore store).NodeFits i id ↔ ex.NodeFits i id := by
  simp only [NodeFits, withStore, h.getNodeIn]

theorem isMatch_withStore (h : ex.store.SameGraph store) :
    (ex.withStore store).IsMatch m ↔ ex.IsMatch m := by
  have htrail : ∀ i a es c, (ex.withStore store).TrailFits i a es c ↔ ex.TrailFits i a es c := by
    intro i a es c
    rw [TrailFits, TrailFits, leads_withStore h]
    rfl
  constructor
  · intro hm
    refine ⟨hm.ends_length, hm.trails_length, fun i id hid ↦ ?_, fun i a es c ha hes hc ↦ ?_,
      hm.once, hm.same⟩
    · exact (nodeFits_withStore h i id).mp (hm.node i id hid)
    · exact (htrail i a es c).mp (hm.trail i a es c ha hes hc)
  · intro hm
    refine ⟨hm.ends_length, hm.trails_length, fun i id hid ↦ ?_, fun i a es c ha hes hc ↦ ?_,
      hm.once, hm.same⟩
    · exact (nodeFits_withStore h i id).mpr (hm.node i id hid)
    · exact (htrail i a es c).mpr (hm.trail i a es c ha hes hc)

theorem binds_withStore : (ex.withStore store).Binds anchor m b ↔ ex.Binds anchor m b :=
  ⟨fun h ↦ ⟨h.node, h.rel, h.only⟩, fun h ↦ ⟨h.node, h.rel, h.only⟩⟩

theorem eval_withStore (h : ex.store.SameGraph store) (e : GExpr) :
    (ex.withStore store).eval b e = ex.eval b e := by
  have hprops : ∀ v, (ex.withStore store).propsOf b v = ex.propsOf b v := by
    intro v
    simp only [propsOf, withStore, h.getNodeIn, h.getEdgeIn]
  cases e with
  | prop v path => simp only [eval.eq_def, hprops]
  | _ => simp only [eval, withStore, h.getNodeIn, h.getEdgeIn]

variable [Unicode]

mutual

theorem test_withStore (h : ex.store.SameGraph store) (c : GCond) :
    (ex.withStore store).test b c = ex.test b c := by
  cases c with
  | and parts => rw [test, test, testAll_withStore h parts]
  | or parts => rw [test, test, testAny_withStore h parts]
  | not inner => rw [test, test, test_withStore h inner]
  | hasLabel v label => simp only [test, withStore, h.getNodeIn]
  | _ => simp only [test, eval_withStore h]

theorem testAll_withStore (h : ex.store.SameGraph store) (parts : List GCond) :
    (ex.withStore store).testAll b parts = ex.testAll b parts := by
  cases parts with
  | nil => rfl
  | cons c parts => rw [testAll, testAll, test_withStore h c, testAll_withStore h parts]

theorem testAny_withStore (h : ex.store.SameGraph store) (parts : List GCond) :
    (ex.withStore store).testAny b parts = ex.testAny b parts := by
  cases parts with
  | nil => rfl
  | cons c parts => rw [testAny, testAny, test_withStore h c, testAny_withStore h parts]

end

/-- **The accepted matches** are those of the graph, whatever the indexes are. -/
theorem accepts_withStore (h : ex.store.SameGraph store) :
    (ex.withStore store).Accepts anchor m b ↔ ex.Accepts anchor m b := by
  have hpasses : (ex.withStore store).passes b = ex.passes b := by
    rw [passes, passes]
    cases hf : ex.q.filter with
    | none => simp only [withStore, hf]
    | some f =>
      simp only [withStore, hf]
      exact test_withStore h f
  constructor
  · intro hm
    exact ⟨(isMatch_withStore h).mp hm.isMatch, binds_withStore.mp hm.binds, hpasses ▸ hm.passes⟩
  · intro hm
    exact ⟨(isMatch_withStore h).mpr hm.isMatch, binds_withStore.mpr hm.binds, hpasses ▸ hm.passes⟩

/-! ## Another start

The list bound to a relationship of variable length is in the order of travel, so the start shows
in it. Everything else in a binding does not depend on the start. -/

variable (ex) in
/-- No variable stands for a whole path. -/
def NoPaths : Prop := ∀ rel ∈ ex.q.rels, rel.var.isSome → rel.hops = none

omit [Unicode] in
/-- **The start does not show** in the binding of a match. -/
theorem IsMatch.binds (hm : ex.IsMatch m) (hc : ex.q.nodes.length = ex.q.rels.length + 1)
    (hpaths : ex.NoPaths) (h : ex.Binds anchor m b) : ex.Binds anchor' m b := by
  refine ⟨h.node, fun i rel v es hrel hv hes ↦ ?_, h.only⟩
  rw [h.rel i rel v es hrel hv hes]
  -- one hop has one edge
  have hi := (List.getElem?_eq_some_iff.mp hrel).1
  have ha := List.getElem?_eq_getElem (l := m.ends) (i := i) (by rw [hm.ends_length]; omega)
  have hb := List.getElem?_eq_getElem (l := m.ends) (i := i + 1) (by rw [hm.ends_length]; omega)
  have hwithin := (hm.trail i _ es _ ha hes hb).2 rel hrel
  have hone := hpaths rel (List.mem_of_getElem? hrel) (hv ▸ rfl)
  rw [RelPattern.Within, hone, Option.getD_none] at hwithin
  obtain ⟨e, rfl⟩ := List.length_eq_one_iff.mp (le_antisymm hwithin.2 hwithin.1)
  have horient : ∀ forward, orient forward [e] = [e] := by
    intro forward
    cases forward <;> rfl
  rw [horient, horient]

/-- **Two lists of one query** are the same bindings in some order. -/
theorem Lists.perm (hc : ex.q.nodes.length = ex.q.rels.length + 1) (hpaths : ex.NoPaths)
    {found found' : List Binding} (h : ex.Lists anchor found) (h' : ex.Lists anchor' found') :
    found.Perm found' := by
  obtain ⟨ms, hnodup, hbinds, hms⟩ := h
  obtain ⟨ms', hnodup', hbinds', hms'⟩ := h'
  have hmatch : ∀ m ∈ ms, ex.IsMatch m := by
    intro m hm
    obtain ⟨b, hb⟩ := (hms m).mp hm
    exact hb.isMatch
  have hperm : ms.Perm ms' := by
    refine (List.perm_ext_iff_of_nodup hnodup hnodup').mpr fun m ↦ ?_
    rw [hms, hms']
    constructor
    · rintro ⟨b, hb⟩
      exact ⟨b, hb.isMatch, hb.isMatch.binds hc hpaths hb.binds, hb.passes⟩
    · rintro ⟨b, hb⟩
      exact ⟨b, hb.isMatch, hb.isMatch.binds hc hpaths hb.binds, hb.passes⟩
  -- the bindings are a function of the matches
  have hex : ∀ m, ∃ b, m ∈ ms → ex.Binds anchor m b := by
    intro m
    by_cases hm : m ∈ ms
    · obtain ⟨b, hb⟩ := (hms m).mp hm
      exact ⟨b, fun _ ↦ hb.binds⟩
    · exact ⟨∅, fun h ↦ absurd h hm⟩
  choose f hf using hex
  have hfound : found = ms.map f := by
    refine hbinds.eq_of_forall (List.forall₂_map_right_iff.mpr (List.forall₂_same.mpr hf)) ?_
    exact fun m hm b b' hb hb' ↦ hb.unique (hmatch m hm).trails_length hb'
  have hfound' : found' = ms'.map f := by
    refine hbinds'.eq_of_forall (S := ex.Binds anchor) (List.forall₂_map_right_iff.mpr
      (List.forall₂_same.mpr fun m hm ↦ hf m (hperm.mem_iff.mpr hm))) fun m hm b b' hb hb' ↦ ?_
    have hmem := hmatch m (hperm.mem_iff.mpr hm)
    exact (hmem.binds hc hpaths hb).unique hmem.trails_length hb'
  rw [hfound, hfound']
  exact hperm.map f

theorem lists_withStore (h : ex.store.SameGraph store) {found : List Binding} :
    (ex.withStore store).Lists anchor found ↔ ex.Lists anchor found := by
  simp only [Lists, accepts_withStore h]
  constructor <;> rintro ⟨ms, hnodup, hbinds, hms⟩
  · exact ⟨ms, hnodup, hbinds.imp fun _ _ ↦ binds_withStore.mp, hms⟩
  · exact ⟨ms, hnodup, hbinds.imp fun _ _ ↦ binds_withStore.mpr, hms⟩

omit [Unicode] in
theorem prepare_withStore {s : GraphStore} {q : MatchQuery} {params : Params}
    (h : prepare s q params = .ok ex) : prepare store q params = .ok (ex.withStore store) := by
  obtain ⟨nodeProps, hnode, h⟩ := Except.bind_eq_ok.mp h
  obtain ⟨relProps, hrel, h⟩ := Except.bind_eq_ok.mp h
  obtain rfl := Except.ok.inj h
  rw [prepare, hnode, Except.ok_bind, hrel]
  rfl

end Match.Exec

namespace GraphRun

open Match Match.Exec

variable {q : MatchQuery} {params : Params} {ex ex' : Exec} {a a' : Anchor}

/-- **Managing indexes does not change what a query returns**, but for the order: with an index, or
without it, or after a rebuild, it lists the same bindings. -/
theorem perm_of_indexing [Unicode] (txs : List (List GraphOp)) {tx : List GraphOp}
    (hshort : ∀ ops ∈ txs, ∀ op ∈ ops, op.ShortEdges) (hindexing : ∀ op ∈ tx, op.Indexing)
    (hq : q.Valid) (hdistinct : ∀ rel ∈ q.rels, rel.Distinct)
    (hpaths : ∀ rel ∈ q.rels, rel.var.isSome → rel.hops = none)
    (hprepare : prepare (run txs).store q params = .ok ex) (ha : ex.chooseAnchor = .ok a)
    (hf : ex.Faithful a) (hprepare' : prepare (run (txs ++ [tx])).store q params = .ok ex')
    (ha' : ex'.chooseAnchor = .ok a') (hf' : ex'.Faithful a') : ∃ k, ∀ fuel, k ≤ fuel →
      ∀ found found', ex.findMatches fuel none = .ok found →
        ex'.findMatches fuel none = .ok found' → found.Perm found' := by
  have hshort' : ∀ ops ∈ txs ++ [tx], ∀ op ∈ ops, op.ShortEdges := by
    intro ops hops op hop
    rcases List.mem_append.mp hops with hops | hops
    · exact hshort ops hops op hop
    · obtain rfl := List.mem_singleton.mp hops
      exact (hindexing op hop).shortEdges
  have hgraph : (run txs).store.SameGraph (run (txs ++ [tx])).store := by
    rw [run, run, List.foldl_append]
    exact sameGraph_transact hindexing
  obtain ⟨hprepared, rfl, hstore⟩ :=
    prepared_of_prepare (ok_run hshort).consistent hq hprepare
  obtain ⟨hprepared', hq', -⟩ :=
    prepared_of_prepare (ok_run hshort').consistent hq hprepare'
  obtain rfl := Except.ok.inj (hprepare'.symm.trans (prepare_withStore hprepare))
  rw [← hstore] at hgraph
  obtain ⟨k, hk⟩ := hprepared.lists hdistinct ha hf
  obtain ⟨k', hk'⟩ := hprepared'.lists hdistinct ha' hf'
  refine ⟨max k k', fun fuel hfuel found found' h h' ↦ ?_⟩
  have hlists := (hk fuel (by omega)).1 found h
  have hlists' := (lists_withStore hgraph).mp ((hk' fuel (by omega)).1 found' h')
  exact hlists.perm hq.chain hpaths hlists'

/-! ### An index on names -/

/-- Two people with names, one of whom knows the other. -/
def namedTxs : List (List GraphOp) :=
  [[.createNode "Person" (OrdMap.insert ∅ "name" (.str "Ana")),
    .createNode "Person" (OrdMap.insert ∅ "name" (.str "Bo"))], [.createEdge ⟨1⟩ "KNOWS" ⟨2⟩ ∅]]

/-- Whom Ana knows. -/
def namedQuery : MatchQuery where
  nodes := [⟨some "a", some "Person", [("name", .lit (.str "Ana"))]⟩, ⟨some "b", none, []⟩]
  rels := [⟨some "r", ["KNOWS"], .right, [], none⟩]

/-- The execution of the query over a store. -/
def namedExec (store : GraphStore) : Exec where
  store
  q := namedQuery
  nodeProps := [[("name", .str "Ana")], []]
  relProps := [[]]

/-- An index on the names. -/
def nameIndex : List GraphOp := [.createPropertyIndex "Person" "name"]

/-- A string is equal to no other value, so that an index finds it wherever it is. -/
theorem eqvOption_of_testCmp_str {x : Option PropValue} {t : String}
    (h : testCmp .eq (x.getD .null) (.str t) = true) :
    PropValue.eqvOption x (some (.str t)) = true := by
  rcases testCmp_eq.mp h with ⟨-, hnull⟩ | heq
  · cases hnull
  cases x with
  | none => cases heq
  | some v =>
    cases v with
    | str u =>
      rw [Option.getD_some, PropValue.compareValues, Option.some.injEq, Bytes.cmp_eq_eq] at heq
      rw [String.utf8_injective heq]
      simp [PropValue.eqvOption, PropValue.eqv]
    | _ => cases heq

private theorem short_namedTxs : ∀ ops ∈ namedTxs, ∀ op ∈ ops, op.ShortEdges := by
  have hknows : ShortType "KNOWS" := by decide +kernel
  simp [namedTxs, GraphOp.ShortEdges, hknows]

private theorem valid_namedQuery : namedQuery.Valid := by
  have hperson : ShortName "Person" := show "Person".utf8.length ≤ 65535 by decide +kernel
  exact ⟨rfl, by simp [namedQuery, hperson], _, rfl⟩

private theorem chooseAnchor_named {s : GraphStore} {indexes : List (String × String)}
    (h : s.propertyIndexesIn = .ok indexes) : (namedExec s).chooseAnchor =
      .ok (if ("Person", "name") ∈ indexes then ⟨3, 0, none, some ("name", .str "Ana")⟩
        else ⟨2, 0, none, none⟩) := by
  have heqs : (namedExec s).topLevelEqualities = .ok [] := by
    simp [topLevelEqualities, namedExec, namedQuery, equalitiesOf]
  rw [chooseAnchor, heqs, Except.ok_bind, show (namedExec s).store = s from rfl, h, Except.ok_bind]
  by_cases hc : ("Person", "name") ∈ indexes <;>
    simp [namedExec, namedQuery, nth, Except.ofOption, indexedBy, pinnedBy, scoreOf, hc, pure,
      Except.pure]

private theorem propertyIndexesIn_eq {s : GraphStore} {indexes : List (String × String)}
    (h : s.propertyIndexesIn.toOption = some indexes) : s.propertyIndexesIn = .ok indexes := by
  cases hs : s.propertyIndexesIn with
  | error e => simp [hs, Except.toOption] at h
  | ok l => simpa [hs, Except.toOption] using h

theorem perm_of_indexing_named : ∃ k, ∀ fuel, k ≤ fuel → ∀ found found',
    @findMatches (namedExec (run namedTxs).store) Unicode.ascii fuel none = .ok found →
    @findMatches (namedExec (run (namedTxs ++ [nameIndex])).store) Unicode.ascii fuel none =
      .ok found' → found.Perm found' := by
  have hnone : (run namedTxs).store.propertyIndexesIn = .ok [] :=
    propertyIndexesIn_eq (by decide +kernel)
  have hsome : (run (namedTxs ++ [nameIndex])).store.propertyIndexesIn = .ok [("Person", "name")] :=
    propertyIndexesIn_eq (by decide +kernel)
  exact @perm_of_indexing namedQuery {} _ _ _ _ Unicode.ascii namedTxs nameIndex short_namedTxs
    (by simp [nameIndex, GraphOp.Indexing]) valid_namedQuery
    (by simp [namedQuery, RelPattern.Distinct]) (by simp [namedQuery]) rfl
    (chooseAnchor_named hnone) ⟨fun v h ↦ (by cases h), fun p v h ↦ (by cases h)⟩ rfl
    (chooseAnchor_named hsome) ⟨fun v h ↦ (by cases h), fun p v h id rec _ htest ↦ by
      obtain ⟨rfl, rfl⟩ := Prod.mk.inj (Option.some.inj h)
      exact eqvOption_of_testCmp_str htest⟩

end GraphRun
