import Bkndb.Basic.Trails
import Bkndb.Lang.MatchExec

/-!
# Following a relationship

Where a relationship of a pattern leads. In a consistent store one hop finds the edges that the
relationship allows, and an expansion finds the trails of such edges whose length is within its
bounds, each of them once unless a type is listed twice.

## Distinct types

A relationship that lists a type twice reads the edges of this type twice, and so finds a match
over them twice. `RelPattern.Distinct` excludes this; it is a condition on the query.

## Main results

* `step_spec`: one hop finds the edges that lead the way of the relationship, each once when the
  types are distinct.
* `expand_spec`: an expansion finds the trails whose length is within the bounds, over edges that
  were not used before.
-/

open Graph Trails GraphStore

namespace GraphStore

variable {s : GraphStore} {table : OrdMap Bytes Unit} {first second : EdgeRecord → NodeId}
  {direction : Direction} {types : Option (List String)} {a b b' : NodeId} {e : EdgeId}

/-! ## Hops -/

theorem Hop.unique (h : s.Hop direction types a e b) (h' : s.Hop direction types a e b') :
    b = b' := by
  obtain ⟨r, hr, -, hends⟩ := h
  obtain ⟨r', hr', -, hends'⟩ := h'
  obtain rfl := Option.some.inj (hr.symm.trans hr')
  cases direction with
  | out => exact hends.2.symm.trans hends'.2
  | «in» => exact hends.2.symm.trans hends'.2
  | both =>
    rcases hends with ⟨hsrc, hdst⟩ | ⟨hdst, hsrc⟩ <;>
      rcases hends' with ⟨hsrc', hdst'⟩ | ⟨hdst', hsrc'⟩
    · exact hdst.symm.trans hdst'
    · rw [← hdst, hdst', ← hsrc, hsrc']
    · rw [← hsrc, hsrc', ← hdst, hdst']
    · exact hsrc.symm.trans hsrc'

/-- The neighbours along types that are listed once have distinct edges. -/
theorem RowsOf.nodup_neighborsAlong (hs : s.RowsOf table first second)
    (htypes : ∀ ts, types = some ts → ts.Nodup) {l : List (NodeId × EdgeId)}
    (h : GraphStore.neighborsAlong table a types = .ok l) : (l.map Prod.snd).Nodup := by
  cases types with
  | none =>
    obtain ⟨rows, hrows, hnodup, hmem⟩ := hs.neighborsAnyIn a
    rw [GraphStore.neighborsAlong, hrows] at h
    obtain rfl := Except.ok.inj h
    rw [List.map_map]
    refine hnodup.map_on ?_
    rintro ⟨t, other, e⟩ he ⟨t', other', e'⟩ he' heq
    obtain rfl : e = e' := heq
    obtain ⟨r, hr, -, rfl, rfl⟩ := (hmem _ _ _).mp he
    obtain ⟨r', hr', -, rfl, rfl⟩ := (hmem _ _ _).mp he'
    obtain rfl := Option.some.inj (hr.symm.trans hr')
    rfl
  | some ts =>
    have hrun := Except.foldlM_induction (fun done l ↦ done.Nodup → (l.map Prod.snd).Nodup ∧
      ∀ x ∈ l, ∃ r, s.getEdgeIn x.2 = some r ∧ r.edgeType ∈ done) h (by simp) (by
        rintro done t res res' - hres hstep hdone
        obtain ⟨rows, hrows, hnodup, hmem⟩ := hs.neighborsIn a t
        rw [hrows] at hstep
        obtain rfl := Except.ok.inj hstep
        rw [List.nodup_append] at hdone
        obtain ⟨hone, hin⟩ := hres hdone.1
        have hrow : ∀ x ∈ rows, ∃ r, s.getEdgeIn x.2 = some r ∧ r.edgeType = t ∧
            second r = x.1 := by
          rintro ⟨other, e⟩ hx
          obtain ⟨r, hr, -, ht, hsecond⟩ := (hmem other e).mp hx
          exact ⟨r, hr, ht, hsecond⟩
        constructor
        · rw [List.map_append, List.nodup_append]
          refine ⟨hone, hnodup.map_on fun x hx y hy heq ↦ ?_, ?_⟩
          · obtain ⟨r, hr, -, hsecond⟩ := hrow x hx
            obtain ⟨r', hr', -, hsecond'⟩ := hrow y hy
            rw [heq] at hr
            obtain rfl := Option.some.inj (hr.symm.trans hr')
            exact Prod.ext (hsecond.symm.trans hsecond') heq
          · -- an edge has one type
            intro e he e' he' heq
            obtain ⟨x, hx, hxe⟩ := List.mem_map.mp he
            obtain ⟨y, hy, hye⟩ := List.mem_map.mp he'
            obtain ⟨r, hr, hdone'⟩ := hin x hx
            obtain ⟨r', hr', ht, -⟩ := hrow y hy
            rw [hye, ← heq, ← hxe] at hr'
            obtain rfl := Option.some.inj (hr.symm.trans hr')
            exact hdone.2.2 _ hdone' t (List.mem_singleton_self t) ht
        · intro x hx
          rcases List.mem_append.mp hx with hx | hx
          · obtain ⟨r, hr, ht⟩ := hin x hx
            exact ⟨r, hr, List.mem_append_left _ ht⟩
          · obtain ⟨r, hr, ht, -⟩ := hrow x hx
            exact ⟨r, hr, by simp [ht]⟩)
    exact (hrun (htypes ts rfl)).1

end GraphStore

/-- No type is listed twice, unless the edges are told apart anyway. -/
def RelPattern.Distinct (rel : RelPattern) : Prop := rel.direction = .either ∨ rel.types.Nodup

theorem RelPattern.Distinct.typesOf {rel : RelPattern} (h : rel.Distinct)
    (hway : rel.direction ≠ .either) {ts : List String} (hts : rel.typesOf = some ts) :
    ts.Nodup := by
  rw [RelPattern.typesOf] at hts
  split at hts
  · cases hts
  · obtain rfl := Option.some.inj hts
    exact h.resolve_left hway

/-- A number of hops is within the bounds of a relationship. -/
def RelPattern.Within (rel : RelPattern) (n : ℕ) : Prop :=
  (rel.hops.getD (1, 1)).1 ≤ n ∧ n ≤ (rel.hops.getD (1, 1)).2

namespace Match

/-- A record has the properties that a pattern asks for. -/
def HasProps (props : List (String × PropValue)) (properties : Properties) : Prop :=
  ∀ p ∈ props, ∃ x, properties.get? p.1 = some x ∧ x.compareValues p.2 = some .eq

namespace Exec

variable (ex : Exec)

/-- An edge that has the properties of a relationship leads along it from one node to another,
travelling left to right through the pattern or back. -/
def Leads (i : ℕ) (forward : Bool) (a : NodeId) (e : EdgeId) (b : NodeId) : Prop :=
  ∃ rel props r, ex.q.rels[i]? = some rel ∧ ex.relProps[i]? = some props ∧
    ex.store.getEdgeIn e = some r ∧ Admits rel.typesOf r.edgeType ∧
    Joins r (way rel.direction forward) a b ∧ HasProps props r.properties

variable {ex} {i : ℕ} {forward : Bool} {a b b' : NodeId} {e : EdgeId} {rel : RelPattern}
  {props : List (String × PropValue)}

theorem propsMatch_iff {properties : Properties} :
    propsMatch props properties = true ↔ HasProps props properties := by
  simp [propsMatch, HasProps, Option.any_eq_true]

theorem nth_eq_ok {α : Type} {l : List α} {x : α} : nth l i = .ok x ↔ l[i]? = some x :=
  Except.ofOption_eq_ok

theorem joins_back {r : EdgeRecord} {d : RelDirection} :
    Joins r (way d false) a b ↔ Joins r (way d true) b a := by
  cases d with
  | right => exact and_comm
  | left => exact and_comm
  | either =>
    simp only [way, Joins]
    constructor <;> rintro (⟨h, h'⟩ | ⟨h, h'⟩)
    · exact .inr ⟨h', h⟩
    · exact .inl ⟨h', h⟩
    · exact .inr ⟨h', h⟩
    · exact .inl ⟨h', h⟩

theorem leads_back : ex.Leads i false a e b ↔ ex.Leads i true b e a := by
  simp only [Leads, joins_back]

/-! ## One hop -/

/-- **One hop** finds the edges of an admitted type that lead the way of the relationship. -/
theorem step_spec (hs : ex.store.EdgesOk) (hrel : ex.q.rels[i]? = some rel) (a : NodeId)
    (forward : Bool) : ∃ l, ex.step i a forward = .ok l ∧
      (∀ b e, (b, e) ∈ l ↔ ex.store.Hop (way rel.direction forward) rel.typesOf a e b) ∧
      (rel.Distinct → (l.map Prod.snd).Nodup) := by
  obtain ⟨l, hl, hmem⟩ := hs.neighborsForTraversal a (way rel.direction forward) rel.typesOf
  rw [step, nth_eq_ok.mpr hrel, Except.ok_bind, hl, Except.ok_bind]
  have hinj : ∀ x ∈ l, ∀ y ∈ l, x.2 = y.2 → x = y := by
    rintro ⟨b, e⟩ hb ⟨b', e'⟩ hb' rfl
    rw [((hmem b e).mp hb).unique ((hmem b' e).mp hb')]
  cases hway : way rel.direction forward with
  | both =>
    refine ⟨_, rfl, fun b e ↦ ?_, fun _ ↦ Grouping.keepFirst_nodup.1⟩
    rw [Grouping.mem_keepFirst hinj, hmem, hway]
  | out =>
    refine ⟨l, rfl, fun b e ↦ by rw [hmem, hway], fun hdistinct ↦ ?_⟩
    have hne : rel.direction ≠ .either := by
      rintro heq
      rw [heq] at hway
      cases hway
    rw [hway] at hl
    exact hs.rowsOut.nodup_neighborsAlong (fun ts ↦ hdistinct.typesOf hne) hl
  | «in» =>
    refine ⟨l, rfl, fun b e ↦ by rw [hmem, hway], fun hdistinct ↦ ?_⟩
    have hne : rel.direction ≠ .either := by
      rintro heq
      rw [heq] at hway
      cases hway
    rw [hway] at hl
    exact hs.rowsIn.nodup_neighborsAlong (fun ts ↦ hdistinct.typesOf hne) hl

/-- An edge of the store has the properties of a relationship. -/
theorem edgeMatches_spec (hprops : ex.relProps[i]? = some props) {r : EdgeRecord}
    (hr : ex.store.getEdgeIn e = some r) : ∃ ok, ex.edgeMatches i e = .ok ok ∧
      (ok = true ↔ HasProps props r.properties) := by
  rw [edgeMatches, nth_eq_ok.mpr hprops, Except.ok_bind]
  split_ifs with hempty
  · refine ⟨true, rfl, iff_of_true rfl fun p hp ↦ ?_⟩
    rw [List.isEmpty_iff.mp hempty] at hp
    cases hp
  · rw [hr]
    exact ⟨_, rfl, propsMatch_iff⟩

/-! ## Expansion -/

section Expand

variable {next : NodeId → List (NodeId × EdgeId)} {fits : EdgeId → Bool} {used : List EdgeId}

/-- An edge that was not used before and has the properties may be taken. -/
def free (fits : EdgeId → Bool) (used : List EdgeId) (e : EdgeId) : Bool :=
  !used.contains e && fits e

theorem expandFrontier_eq (hnext : ∀ a, ex.step i a forward = .ok (next a))
    (hfits : ∀ e, ex.edgeMatches i e = .ok (fits e)) (frontier : List (NodeId × List EdgeId)) :
    ex.expandFrontier i forward used frontier =
      .ok (frontier.flatMap (extend next (free fits used))) := by
  rw [expandFrontier]
  refine (Except.foldlM_append (f := extend next (free fits used)) ?_ []).trans (by simp)
  rintro ⟨a, path⟩ - acc
  simp only [hnext, Except.ok_bind, extend]
  refine (Except.foldlM_append (f := fun x : NodeId × EdgeId ↦
    if free fits used x.2 && !path.contains x.2 then [(x.1, path ++ [x.2])] else []) ?_ acc).trans ?_
  · rintro ⟨b, e⟩ - acc
    rw [free, hfits]
    cases used.contains e <;> cases path.contains e <;> cases fits e <;> simp <;> rfl
  · congr 2
    induction next a with
    | nil => rfl
    | cons x l ih =>
      rw [List.flatMap_cons, ih, List.filter_cons]
      split <;> simp

theorem expandLoop_eq (hnext : ∀ a, ex.step i a forward = .ok (next a))
    (hfits : ∀ e, ex.edgeMatches i e = .ok (fits e)) (min hops d : ℕ)
    (out : List (NodeId × List EdgeId)) :
    ex.expandLoop i forward used min hops (d + 1) (layer next (free fits used) a d) out =
      .ok (out ++ (List.range' (d + 1) hops).flatMap fun n ↦
        if min ≤ n then layer next (free fits used) a n else []) := by
  induction hops generalizing d out with
  | zero =>
    rw [expandLoop]
    simp
  | succ hops ih =>
    have hlayer : (layer next (free fits used) a d).flatMap (extend next (free fits used)) =
        layer next (free fits used) a (d + 1) := rfl
    rw [expandLoop, expandFrontier_eq hnext hfits, Except.ok_bind, hlayer, List.range'_succ,
      List.flatMap_cons]
    have hout : (if min ≤ d + 1 then out ++ layer next (free fits used) a (d + 1) else out) =
        out ++ if min ≤ d + 1 then layer next (free fits used) a (d + 1) else [] := by
      split <;> simp
    simp only [hout]
    by_cases hempty : (layer next (free fits used) a (d + 1)).isEmpty
    · rw [if_pos hempty]
      -- past an empty layer there is nothing to add
      have hnil := List.isEmpty_iff.mp hempty
      have hrest : ((List.range' (d + 1 + 1) hops).flatMap fun n ↦
          if min ≤ n then layer next (free fits used) a n else []) = [] := by
        refine List.flatMap_eq_nil_iff.mpr fun n hn ↦ ?_
        rw [layer_eq_nil hnil (by simp at hn; omega), ite_self]
      rw [hrest, List.append_nil]
      rfl
    · rw [if_neg hempty, ih, List.append_assoc]

theorem expand_eq (hrel : ex.q.rels[i]? = some rel)
    (hnext : ∀ a, ex.step i a forward = .ok (next a))
    (hfits : ∀ e, ex.edgeMatches i e = .ok (fits e)) :
    ex.expand i a forward used = .ok ((List.range ((rel.hops.getD (1, 1)).2 + 1)).flatMap fun n ↦
      if (rel.hops.getD (1, 1)).1 ≤ n then layer next (free fits used) a n else []) := by
  rw [expand, nth_eq_ok.mpr hrel, Except.ok_bind]
  obtain ⟨min, max⟩ := rel.hops.getD (1, 1)
  simp only []
  rw [List.range_eq_range', List.range'_succ, List.flatMap_cons]
  have := fun out ↦ @expandLoop_eq ex i forward a next fits used hnext hfits min max 0 out
  simp only [layer] at this
  rw [this]
  simp [layer]

/-- **An expansion** finds the trails of a relationship whose length is within its bounds, over
edges that were not used before. -/
theorem expand_spec (hs : ex.store.EdgesOk) (hrel : ex.q.rels[i]? = some rel)
    (hprops : ex.relProps[i]? = some props) (a : NodeId) (forward : Bool) (used : List EdgeId) :
    ∃ out, ex.expand i a forward used = .ok out ∧
      (∀ b es, (b, es) ∈ out ↔ Walk (ex.Leads i forward) a es b ∧ es.Nodup ∧
        (∀ e ∈ es, e ∉ used) ∧ rel.Within es.length) ∧
      (rel.Distinct → (out.map Prod.snd).Nodup) := by
  have hstep := fun a ↦ step_spec hs hrel a forward
  choose next hnext hmem hnodup using hstep
  have hfits : ∀ e, ∃ ok, ex.edgeMatches i e = .ok ok ∧
      ∀ r, ex.store.getEdgeIn e = some r → (ok = true ↔ HasProps props r.properties) := by
    intro e
    cases hr : ex.store.getEdgeIn e with
    | none =>
      rw [edgeMatches, nth_eq_ok.mpr hprops, Except.ok_bind, hr]
      split <;> exact ⟨_, rfl, fun r h ↦ by cases h⟩
    | some r =>
      obtain ⟨ok, hok, hiff⟩ := edgeMatches_spec hprops hr
      exact ⟨ok, hok, fun r' h ↦ Option.some.inj h ▸ hiff⟩
  choose fits hfits hfitsIff using hfits
  have hleads : ∀ a e b, ex.Leads i forward a e b ↔ (b, e) ∈ next a ∧ fits e = true := by
    intro a e b
    rw [hmem]
    constructor
    · rintro ⟨rel', props', r, hrel', hprops', hr, hadm, hends, hhas⟩
      obtain rfl := Option.some.inj (hrel.symm.trans hrel')
      obtain rfl := Option.some.inj (hprops.symm.trans hprops')
      exact ⟨⟨r, hr, hadm, hends⟩, (hfitsIff e r hr).mpr hhas⟩
    · rintro ⟨⟨r, hr, hadm, hends⟩, hfit⟩
      exact ⟨rel, props, r, hrel, hprops, hr, hadm, hends, (hfitsIff e r hr).mp hfit⟩
  have hwalk : ∀ a es b, Walk (ex.Leads i forward) a es b ↔
      Walk (fun a e b ↦ (b, e) ∈ next a) a es b ∧ ∀ e ∈ es, fits e = true := by
    intro a es b
    rw [← walk_and]
    exact iff_of_eq (congrArg (Walk · a es b) (funext fun a ↦ funext fun e ↦ funext fun b ↦
      propext (hleads a e b)))
  refine ⟨_, expand_eq hrel hnext hfits, fun b es ↦ ?_, fun hdistinct ↦ ?_⟩
  · simp only [List.mem_flatMap, List.mem_range, hwalk, RelPattern.Within]
    constructor
    · rintro ⟨n, hn, h⟩
      split_ifs at h with hmin
      · obtain ⟨hw, hnd, hfree, rfl⟩ := (mem_layer (fun _ _ _ ↦ Iff.rfl)).mp h
        simp only [free, Bool.and_eq_true, Bool.not_eq_true', List.contains_eq_mem,
          decide_eq_false_iff_not] at hfree
        exact ⟨⟨hw, fun e he ↦ (hfree e he).2⟩, hnd, fun e he ↦ (hfree e he).1, hmin, by omega⟩
      · cases h
    · rintro ⟨⟨hw, hfit⟩, hnd, hused, hmin, hmax⟩
      refine ⟨es.length, by omega, ?_⟩
      rw [if_pos hmin]
      refine (mem_layer (fun _ _ _ ↦ Iff.rfl)).mpr ⟨hw, hnd, fun e he ↦ ?_, rfl⟩
      simp [free, hfit e he, hused e he]
  · -- paths of different lengths differ
    rw [List.map_flatMap, List.nodup_flatMap]
    refine ⟨fun n _ ↦ ?_, List.pairwise_lt_range.imp fun {m n} hmn ↦ ?_⟩
    · split_ifs
      · exact nodup_layer (fun a ↦ hnodup a hdistinct) n
      · exact List.nodup_nil
    · have hlength : ∀ k, ∀ es ∈ (if (rel.hops.getD (1, 1)).1 ≤ k then
          layer next (free fits used) a k else []).map Prod.snd, es.length = k := by
        intro k es hes
        obtain ⟨⟨b, es⟩, h, rfl⟩ := List.mem_map.mp hes
        split_ifs at h
        · exact ((mem_layer (fun _ _ _ ↦ Iff.rfl)).mp h).2.2.2
        · cases h
      refine List.disjoint_left.mpr fun es hes hes' ↦ ?_
      exact hmn.ne ((hlength m es hes).symm.trans (hlength n es hes'))

end Expand

end Exec

end Match
