import Bkndb.Core.TotalCmp
import Bkndb.Graph.FindNodes
import Bkndb.Lang.MatchBinding

/-!
# The start of the search

Where the search starts is a matter of speed only: every match that the filter passes has a
candidate at the anchor, whichever node of the pattern was chosen and whatever its candidates come
from. There are two exceptions, and they are conditions on the query: a node pinned by a number that
no identifier is kept as, and an index that tells values apart that a comparison does not.

## What the choice uses

* A node pinned by `id(v) = value` at the top level of the filter.
* An inline property or a top-level equality on a property that has an index for the label.
* The label, or nothing.

In each case it has to be shown that a match the filter passes has its node among the candidates.
The equalities at the top level hold of such a match (`topLevelEqualities_sound`), and the rest is
about what a lookup by identifier or by an index returns.
-/

open Graph Trails

namespace Match.Exec

variable {ex : Exec} {m : PatternMatch} {b : Binding}

/-! ## Equalities -/

theorem isNull_iff {v : PropValue} : v.isNull = true ↔ v = .null := by
  cases v <;> simp [PropValue.isNull]

theorem testCmp_eq {x v : PropValue} : testCmp .eq x v = true ↔
    (x = .null ∧ v = .null) ∨ x.compareValues v = some .eq := by
  rw [testCmp]
  split_ifs with hnull
  · rw [Bool.or_eq_true, isNull_iff, isNull_iff] at hnull
    simp only [Bool.and_eq_true, isNull_iff]
    refine ⟨.inl, fun h ↦ h.resolve_right ?_⟩
    rcases hnull with rfl | rfl
    · cases v <;> simp [PropValue.compareValues]
    · cases x <;> simp [PropValue.compareValues]
  · simp only [Bool.or_eq_true, isNull_iff, not_or] at hnull
    simp only [hnull.1, hnull.2, and_self, false_or]
    cases x.compareValues v with
    | none => simp
    | some o => cases o <;> simp [CmpOp.holds]

theorem testCmp_eq_comm {x v : PropValue} : testCmp .eq x v = testCmp .eq v x := by
  rw [Bool.eq_iff_iff, testCmp_eq, testCmp_eq, PropValue.compareValues_swap x v]
  refine or_congr and_comm ?_
  cases x.compareValues v with
  | none => simp
  | some o => cases o <;> simp [Ordering.swap]

variable [Unicode]

theorem test_of_testAll {parts : List GCond} (h : ex.testAll b parts = .ok true) {c : GCond}
    (hc : c ∈ parts) : ex.test b c = .ok true := by
  induction parts with
  | nil => cases hc
  | cons p parts ih =>
    rw [testAll] at h
    obtain ⟨ok, hp, h⟩ := Except.bind_eq_ok.mp h
    cases ok with
    | false => cases h
    | true =>
      rcases List.mem_cons.mp hc with rfl | hc
      · exact hp
      · exact ih h hc

theorem eval_of_equality {a c e : GExpr} {v : Operand} {w : PropValue}
    (heq : equality a c = some (e, v)) (hv : v.bind ex.params = .ok w)
    (h : ex.test b (.cmp a .eq c) = .ok true) :
    ∃ x, ex.eval b e = .ok x ∧ testCmp .eq x w = true := by
  rw [test] at h
  obtain ⟨x, hx, h⟩ := Except.bind_eq_ok.mp h
  obtain ⟨y, hy, h⟩ := Except.bind_eq_ok.mp h
  have hxy : testCmp .eq x y = true := Except.ok.inj h
  have hvalue : ex.eval b (.value v) = .ok w := by rw [eval, hv]
  rw [equality.eq_def] at heq
  split at heq
  on_goal 5 => cases heq
  all_goals obtain ⟨rfl, rfl⟩ := Prod.mk.inj (Option.some.inj heq)
  · obtain rfl := Except.ok.inj (hy.symm.trans hvalue)
    exact ⟨x, hx, hxy⟩
  · obtain rfl := Except.ok.inj (hx.symm.trans hvalue)
    exact ⟨y, hy, testCmp_eq_comm.trans hxy⟩
  · obtain rfl := Except.ok.inj (hy.symm.trans hvalue)
    exact ⟨x, hx, hxy⟩
  · obtain rfl := Except.ok.inj (hx.symm.trans hvalue)
    exact ⟨y, hy, testCmp_eq_comm.trans hxy⟩

/-- **The equalities hold** of what the conditions hold of. -/
theorem equalitiesOf_sound {stack : List GCond} {eqs : List (GExpr × PropValue)}
    (h : equalitiesOf ex.params stack = .ok eqs) (hall : ∀ c ∈ stack, ex.test b c = .ok true)
    {e : GExpr} {v : PropValue} (he : (e, v) ∈ eqs) :
    ∃ x, ex.eval b e = .ok x ∧ testCmp .eq x v = true := by
  induction stack using equalitiesOf.induct generalizing eqs with
  | case1 =>
    rw [equalitiesOf] at h
    obtain rfl := Except.ok.inj h
    cases he
  | case2 parts stack ih =>
    have hparts : parts.attach.reverse.unattach = parts.reverse := by simp
    rw [hparts] at ih
    rw [equalitiesOf] at h
    refine ih h (fun c hc ↦ ?_) he
    obtain ⟨hand, hrest⟩ := List.forall_mem_cons.mp hall
    rcases List.mem_append.mp hc with hc | hc
    · exact test_of_testAll (by rwa [test] at hand) (List.mem_reverse.mp hc)
    · exact hrest c hc
  | case3 a c stack e' v' heq ih =>
    rw [equalitiesOf, heq] at h
    obtain ⟨v, hv, h⟩ := Except.bind_eq_ok.mp h
    obtain ⟨eqs, hrest, h⟩ := Except.bind_eq_ok.mp h
    obtain rfl := Except.ok.inj h
    obtain ⟨hcmp, hall⟩ := List.forall_mem_cons.mp hall
    rcases List.mem_cons.mp he with he | he
    · obtain ⟨rfl, rfl⟩ := Prod.mk.inj he
      exact eval_of_equality heq hv hcmp
    · exact ih hrest hall he
  | case4 a c stack heq ih =>
    rw [equalitiesOf, heq] at h
    exact ih h (List.forall_mem_cons.mp hall).2 he
  | case5 c stack hand hcmp ih =>
    rw [equalitiesOf] at h
    · exact ih h (List.forall_mem_cons.mp hall).2 he
    · exact hand
    · exact hcmp

/-- The equalities at the top level of a filter that passes hold. -/
theorem topLevelEqualities_sound {eqs : List (GExpr × PropValue)}
    (h : ex.topLevelEqualities = .ok eqs) (hpass : ex.passes b = .ok true) {e : GExpr}
    {v : PropValue} (he : (e, v) ∈ eqs) : ∃ x, ex.eval b e = .ok x ∧ testCmp .eq x v = true := by
  refine equalitiesOf_sound h (fun c hc ↦ ?_) he
  rw [passes] at hpass
  rw [Option.mem_toList] at hc
  rw [hc] at hpass
  exact hpass

/-! ## The choice -/

omit [Unicode] in
theorem scoreOf_pos {pinned : Option PropValue} {indexed : Option (String × PropValue)}
    {n : NodePattern} : 0 < scoreOf pinned indexed n := by
  rw [scoreOf]
  split_ifs <;> decide

omit [Unicode] in
/-- **The anchor** is a node of the pattern, with what was found out about it. -/
theorem chooseAnchor_spec {a : Anchor} (hne : ex.q.nodes ≠ []) (h : ex.chooseAnchor = .ok a) :
    ∃ eqs indexes n props, ex.topLevelEqualities = .ok eqs ∧
      ex.store.propertyIndexesIn = .ok indexes ∧ ex.q.nodes[a.anchor]? = some n ∧
      ex.nodeProps[a.anchor]? = some props ∧ a.pinned = pinnedBy eqs n ∧
      a.indexed = indexedBy eqs indexes n props := by
  obtain ⟨eqs, heqs, h⟩ := Except.bind_eq_ok.mp h
  obtain ⟨indexes, hindexes, h⟩ := Except.bind_eq_ok.mp h
  -- the first node is better than none
  have hrun := Except.foldlM_induction (fun done (best : Anchor) ↦ (done = [] ∧ best.score = 0) ∨
    ∃ n props, ex.q.nodes[best.anchor]? = some n ∧ ex.nodeProps[best.anchor]? = some props ∧
      best.pinned = pinnedBy eqs n ∧ best.indexed = indexedBy eqs indexes n props) h
    (.inl ⟨rfl, rfl⟩) (by
      rintro done ⟨n, i⟩ best best' hpre hbest hstep
      have hmem : (n, i) ∈ ex.q.nodes.zipIdx := hpre.subset (by simp)
      have hn : ex.q.nodes[i]? = some n := List.mem_zipIdx_iff_getElem?.mp hmem
      obtain ⟨props, hprops, hstep⟩ := Except.bind_eq_ok.mp hstep
      obtain rfl := Except.ok.inj hstep
      split_ifs with hbetter
      · exact .inr ⟨n, props, hn, nth_eq_ok.mp hprops, rfl, rfl⟩
      · refine .inr (hbest.resolve_left fun hfirst ↦ hbetter ?_)
        rw [hfirst.2]
        exact scoreOf_pos)
  rcases hrun with ⟨hnil, -⟩ | ⟨n, props, hrest⟩
  · exact absurd (List.zipIdx_eq_nil_iff.mp hnil) hne
  · exact ⟨eqs, indexes, n, props, heqs, hindexes, hrest⟩

omit [Unicode] in
theorem mem_of_pinnedBy {eqs : List (GExpr × PropValue)} {n : NodePattern} {v : PropValue}
    (h : pinnedBy eqs n = some v) : ∃ x, n.var = some x ∧ (.id x, v) ∈ eqs := by
  obtain ⟨x, hx, hfind⟩ := Option.bind_eq_some_iff.mp h
  obtain ⟨⟨e, w⟩, hmem, hread⟩ := List.exists_of_findSome?_eq_some hfind
  cases e with
  | id y =>
    have hif : (if y = x then some w else none) = some v := hread
    split_ifs at hif with heq
    obtain rfl := heq
    obtain rfl := Option.some.inj hif
    exact ⟨y, hx, hmem⟩
  | _ => cases hread

omit [Unicode] in
theorem mem_of_indexedBy {eqs : List (GExpr × PropValue)} {indexes : List (String × String)}
    {n : NodePattern} {props : List (String × PropValue)} {p : String} {v : PropValue}
    (hkeys : props.map Prod.fst = n.props.map Prod.fst)
    (h : indexedBy eqs indexes n props = some (p, v)) : ∃ l, n.label = some l ∧ (l, p) ∈ indexes ∧
      ((p, v) ∈ props ∨ ∃ x, n.var = some x ∧ (.prop x [p], v) ∈ eqs) := by
  obtain ⟨l, hl, h⟩ := Option.bind_eq_some_iff.mp h
  have hmem := List.mem_of_find?_eq_some h
  have hindex := List.find?_some h
  refine ⟨l, hl, by simpa using hindex, ?_⟩
  rcases List.mem_append.mp hmem with hmem | hmem
  · left
    obtain ⟨⟨⟨k, o⟩, k', v'⟩, hzip, heq⟩ := List.mem_map.mp hmem
    obtain ⟨rfl, rfl⟩ := Prod.mk.inj heq
    obtain ⟨j, hj⟩ := List.mem_iff_getElem?.mp hzip
    obtain ⟨hj, hj'⟩ := List.getElem?_zip_eq_some.mp hj
    have hkey := congrArg (·[j]?) hkeys
    simp only [List.getElem?_map, hj, hj', Option.map_some, Option.some.injEq] at hkey
    exact hkey ▸ List.mem_of_getElem? hj'
  · right
    obtain ⟨⟨e, w⟩, heqs, heq⟩ := List.mem_filterMap.mp hmem
    cases e with
    | prop x path =>
      cases path with
      | nil => cases heq
      | cons q rest =>
        cases rest with
        | nil =>
          have hif : (if n.var = some x then some (q, w) else none) = some (p, v) := heq
          split_ifs at hif with hvar
          obtain ⟨rfl, rfl⟩ := Prod.mk.inj (Option.some.inj hif)
          exact ⟨x, hvar, heqs⟩
        | cons => cases heq
    | _ => cases heq

end Match.Exec
