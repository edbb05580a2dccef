import Bkndb.Lang.MatchExpand

/-!
# What the search finds

A match of a pattern assigns a node to each of its nodes and a trail to each of its relationships.
The frames of the search are the matches as far as they are known after a number of steps: from the
anchor the known part grows to the right, and then to the left. So the leaves of the search from a
candidate are the matches with that candidate at the anchor, each once, and what the loop returns
are the bindings of those whose variables are consistent and whose filter passes.

## Frames and matches

`frameOf` is what is known of a match after some steps, and `Partial` says that a match fits as far
as it is known. The frame of a match is replaced by frames one step further, and these are the
frames of the matches that agree with it so far: none is missing (`complete`), and each belongs to
a match (`sound`).

## Main results

* `Ready.visit_frameOf`: what a frame is replaced by.
* `Ready.mem_leaves`: the complete frames that are reached from a candidate are those of the
  matches with the candidate at the anchor.
* `Ready.nodup_leaves`: no two of them have the same edges.
-/

open Graph Trails

namespace Match

/-- A node for each node of a pattern, and for each relationship the edges from one to the next. -/
structure PatternMatch where
  ends : List NodeId
  trails : List (List EdgeId)
  deriving DecidableEq

namespace Exec

variable (ex : Exec)

/-! ## Matches -/

/-- A node has the label and the properties that a node pattern asks for. -/
def NodeFits (i : ℕ) (id : NodeId) : Prop :=
  ∃ n props rec, ex.q.nodes[i]? = some n ∧ ex.nodeProps[i]? = some props ∧
    ex.store.getNodeIn id = some rec ∧ (∀ l, n.label = some l → rec.label = l) ∧
    HasProps props rec.properties

/-- Edges lead from one node to another along a relationship, as many as it allows. -/
def TrailFits (i : ℕ) (a : NodeId) (es : List EdgeId) (b : NodeId) : Prop :=
  Walk (ex.Leads i true) a es b ∧ ∀ rel, ex.q.rels[i]? = some rel → rel.Within es.length

/-- **A match of the pattern.** No edge is used twice, and a variable that is repeated stands for one
node. -/
structure IsMatch (m : PatternMatch) : Prop where
  ends_length : m.ends.length = ex.q.nodes.length
  trails_length : m.trails.length = ex.q.rels.length
  node : ∀ i id, m.ends[i]? = some id → ex.NodeFits i id
  trail : ∀ i a es b, m.ends[i]? = some a → m.trails[i]? = some es → m.ends[i + 1]? = some b →
    ex.TrailFits i a es b
  once : m.trails.flatten.Nodup
  same : ∀ (i j : ℕ) (n n' : NodePattern) (v : String), ex.q.nodes[i]? = some n →
    ex.q.nodes[j]? = some n' → n.var = some v → n'.var = some v → m.ends[i]? = m.ends[j]?

/-- An execution over a consistent store, with the values of all inline properties, of a pattern
that is a chain. -/
structure Ready : Prop where
  edges : ex.store.EdgesOk
  nodeProps : ex.nodeProps.length = ex.q.nodes.length
  relProps : ex.relProps.length = ex.q.rels.length
  chain : ex.q.nodes.length = ex.q.rels.length + 1

variable {ex} {anchor d i : ℕ} {forward : Bool} {m : PatternMatch}

theorem Ready.nodeMatches_spec (hr : ex.Ready) (hi : i < ex.q.nodes.length) (id : NodeId) :
    ∃ ok, ex.nodeMatches i id = .ok ok ∧ (ok = true ↔ ex.NodeFits i id) := by
  have hnode := List.getElem?_eq_getElem hi
  have hprops := List.getElem?_eq_getElem (hr.nodeProps ▸ hi)
  rw [nodeMatches, nth_eq_ok.mpr hnode, Except.ok_bind, nth_eq_ok.mpr hprops, Except.ok_bind]
  cases hrec : ex.store.getNodeIn id with
  | none =>
    refine ⟨false, rfl, iff_of_false Bool.false_ne_true ?_⟩
    rintro ⟨-, -, rec, -, -, h, -⟩
    rw [hrec] at h
    cases h
  | some rec =>
    refine ⟨_, rfl, ?_⟩
    rw [Bool.and_eq_true, propsMatch_iff]
    constructor
    · rintro ⟨hlabel, hhas⟩
      refine ⟨_, _, rec, hnode, hprops, hrec, fun l hl ↦ ?_, hhas⟩
      rw [hl] at hlabel
      exact eq_of_beq hlabel
    · rintro ⟨n, props, rec', hn, hp, hrec', hlabel, hhas⟩
      obtain rfl := Option.some.inj (hnode.symm.trans hn)
      obtain rfl := Option.some.inj (hprops.symm.trans hp)
      obtain rfl := Option.some.inj (hrec.symm.trans hrec')
      refine ⟨?_, hhas⟩
      cases hl : ex.q.nodes[i].label with
      | none => rfl
      | some l => exact beq_iff_eq.mpr (hlabel l hl)

/-! ## The steps

After `n` steps the known positions are an interval around the anchor, which grows to the right end
first. All of this is about positions, and nothing about the store. -/

/-- The positions that are known after a number of steps. -/
def Known (n anchor d j : ℕ) : Prop := j ≤ anchor + d ∧ (anchor ≤ j ∨ n ≤ d + j)

/-- The relationships that were walked along after a number of steps. -/
def Taken (n anchor d i : ℕ) : Prop := i < anchor + d ∧ (anchor ≤ i ∨ n ≤ d + i)

instance (n anchor d j : ℕ) : Decidable (Known n anchor d j) := inferInstanceAs (Decidable (_ ∧ _))

theorem length_stepsFrom (h : anchor ≤ ex.q.rels.length) :
    (ex.stepsFrom anchor).length = ex.q.rels.length := by
  simp [stepsFrom]
  omega

/-- The steps go to the right, and then to the left. -/
theorem getElem?_stepsFrom (h : anchor ≤ ex.q.rels.length) (d : ℕ) :
    (ex.stepsFrom anchor)[d]? =
      if d < ex.q.rels.length - anchor then some (anchor + d, true)
      else if d < ex.q.rels.length then some (ex.q.rels.length - 1 - d, false) else none := by
  rw [stepsFrom, List.getElem?_append]
  simp only [List.length_map, List.length_range', List.getElem?_map]
  split_ifs with hright hleft
  · rw [List.getElem?_range' hright]
    simp
  · rw [List.getElem?_reverse (by simp; omega), List.length_range, List.getElem?_range (by omega)]
    simp
    omega
  · rw [List.getElem?_eq_none (by simp; omega)]
    rfl

/-- What one step makes known. -/
structure Advances (n anchor d i : ℕ) (forward : Bool) : Prop where
  lt : i < n
  right : forward = decide (anchor ≤ i)
  src : Known n anchor d (stepEnds i forward).1
  dst : ¬Known n anchor d (stepEnds i forward).2
  known : ∀ j, j ≤ n → (Known n anchor (d + 1) j ↔ Known n anchor d j ∨ j = (stepEnds i forward).2)
  taken : ∀ k, k < n → (Taken n anchor (d + 1) k ↔ Taken n anchor d k ∨ k = i)
  fresh : ¬Taken n anchor d i

/-- **Every step makes one more node known.** -/
theorem exists_advances (h : anchor ≤ ex.q.rels.length) (hd : d < ex.q.rels.length) :
    ∃ i forward, (ex.stepsFrom anchor)[d]? = some (i, forward) ∧
      Advances ex.q.rels.length anchor d i forward := by
  rw [getElem?_stepsFrom h]
  by_cases hright : d < ex.q.rels.length - anchor
  · refine ⟨anchor + d, true, by rw [if_pos hright], ?_⟩
    refine ⟨by omega, ?_, ?_, ?_, ?_, ?_, ?_⟩ <;> simp [stepEnds, Known, Taken] <;> omega
  · refine ⟨ex.q.rels.length - 1 - d, false, by rw [if_neg hright, if_pos hd], ?_⟩
    refine ⟨by omega, ?_, ?_, ?_, ?_, ?_, ?_⟩ <;> simp [stepEnds, Known, Taken] <;> omega

theorem mem_take_stepsFrom (h : anchor ≤ ex.q.rels.length) :
    (i, forward) ∈ (ex.stepsFrom anchor).take d ↔
      i < ex.q.rels.length ∧ Taken ex.q.rels.length anchor d i ∧ forward = decide (anchor ≤ i) := by
  simp only [List.mem_iff_getElem?, List.getElem?_take, getElem?_stepsFrom h]
  constructor
  · rintro ⟨k, hk⟩
    split_ifs at hk with hlt hright hleft
    · obtain ⟨rfl, rfl⟩ := Prod.mk.inj (Option.some.inj hk)
      refine ⟨by omega, ?_, by simp⟩
      simp only [Taken]
      omega
    · obtain ⟨rfl, rfl⟩ := Prod.mk.inj (Option.some.inj hk)
      refine ⟨by omega, ?_, by simp; omega⟩
      simp only [Taken]
      omega
  · rintro ⟨hi, htaken, rfl⟩
    simp only [Taken] at htaken
    by_cases hright : anchor ≤ i
    · refine ⟨i - anchor, ?_⟩
      rw [if_pos (by omega), if_pos (by omega)]
      simp [hright]
    · refine ⟨ex.q.rels.length - 1 - i, ?_⟩
      rw [if_pos (by omega), if_neg (by omega), if_pos (by omega)]
      simp [hright]
      omega

/-! ## The frames -/

/-- The edges of a relationship in the order they are walked along. -/
def orient (forward : Bool) (es : List EdgeId) : List EdgeId := if forward then es else es.reverse

@[simp] theorem orient_orient (forward : Bool) (es : List EdgeId) :
    orient forward (orient forward es) = es := by
  cases forward <;> simp [orient]

@[simp] theorem length_orient (forward : Bool) (es : List EdgeId) :
    (orient forward es).length = es.length := by
  cases forward <;> simp [orient]

variable (ex) in
/-- The relationships of a match that were walked along. -/
def relsOf (anchor d : ℕ) (m : PatternMatch) : List (ℕ × List EdgeId) :=
  ((ex.stepsFrom anchor).take d).map fun x ↦ (x.1, orient x.2 (m.trails[x.1]?.getD []))

variable (ex) in
/-- What the search knows of a match after a number of steps. -/
def frameOf (anchor d : ℕ) (m : PatternMatch) : Frame where
  depth := d
  positions := (List.range ex.q.nodes.length).map fun j ↦
    if Known ex.q.rels.length anchor d j then m.ends[j]? else none
  used := (ex.relsOf anchor d m).flatMap Prod.snd
  rels := ex.relsOf anchor d m

variable (ex) in
/-- A match as far as it is known after a number of steps. -/
structure Partial (anchor d : ℕ) (m : PatternMatch) : Prop where
  ends_length : m.ends.length = ex.q.nodes.length
  trails_length : m.trails.length = ex.q.rels.length
  node : ∀ j id, Known ex.q.rels.length anchor d j → m.ends[j]? = some id → ex.NodeFits j id
  trail : ∀ i a es b, Taken ex.q.rels.length anchor d i → m.ends[i]? = some a →
    m.trails[i]? = some es → m.ends[i + 1]? = some b → ex.TrailFits i a es b
  once : ((ex.relsOf anchor d m).flatMap Prod.snd).Nodup

theorem getElem?_positions (anchor d : ℕ) (m : PatternMatch) {j : ℕ}
    (hj : j < ex.q.nodes.length) : (ex.frameOf anchor d m).positions[j]? =
      some (if Known ex.q.rels.length anchor d j then m.ends[j]? else none) := by
  simp [frameOf, hj]

theorem relsOf_congr (h : anchor ≤ ex.q.rels.length) {m' : PatternMatch}
    (htrails : ∀ i, Taken ex.q.rels.length anchor d i → m.trails[i]? = m'.trails[i]?) :
    ex.relsOf anchor d m = ex.relsOf anchor d m' := by
  refine List.map_congr_left ?_
  rintro ⟨i, forward⟩ hi
  rw [htrails i ((mem_take_stepsFrom h).mp hi).2.1]

theorem relsOf_succ {i : ℕ} {forward : Bool} (hstep : (ex.stepsFrom anchor)[d]? = some (i, forward))
    (m : PatternMatch) : ex.relsOf anchor (d + 1) m =
      ex.relsOf anchor d m ++ [(i, orient forward (m.trails[i]?.getD []))] := by
  rw [relsOf, List.take_add_one, hstep, List.map_append]
  rfl

/-- **One step further**: the frame of a match after a step is the frame before it, advanced. -/
theorem frameOf_succ (hc : ex.q.nodes.length = ex.q.rels.length + 1)
    (hstep : (ex.stepsFrom anchor)[d]? = some (i, forward))
    (hadv : Advances ex.q.rels.length anchor d i forward) {id : NodeId}
    (hid : m.ends[(stepEnds i forward).2]? = some id) :
    ex.frameOf anchor (d + 1) m =
      (ex.frameOf anchor d m).advance i forward (id, orient forward (m.trails[i]?.getD [])) := by
  have hpositions : (ex.frameOf anchor (d + 1) m).positions =
      (ex.frameOf anchor d m).positions.set (stepEnds i forward).2 (some id) := by
    refine List.ext_getElem? fun j ↦ ?_
    by_cases hj : j < ex.q.nodes.length
    · rw [List.getElem?_set, getElem?_positions _ _ _ hj, getElem?_positions _ _ _ hj]
      by_cases hdst : (stepEnds i forward).2 = j
      · subst hdst
        rw [if_pos ((hadv.known _ (by omega)).mpr (.inr rfl)), hid]
        simp [frameOf, hj]
      · rw [if_neg hdst]
        have := hadv.known j (by omega)
        simp only [this, Ne.symm hdst, or_false]
    · rw [List.getElem?_eq_none (by simp [frameOf]; omega),
        List.getElem?_eq_none (by simp [frameOf]; omega)]
  rw [Frame.advance, frameOf, ← hpositions]
  simp only [frameOf, relsOf_succ hstep, List.flatMap_append]
  simp

theorem frameOf_congr (h : anchor ≤ ex.q.rels.length) {m' : PatternMatch}
    (hends : ∀ j, Known ex.q.rels.length anchor d j → m.ends[j]? = m'.ends[j]?)
    (htrails : ∀ i, Taken ex.q.rels.length anchor d i → m.trails[i]? = m'.trails[i]?) :
    ex.frameOf anchor d m = ex.frameOf anchor d m' := by
  rw [frameOf, frameOf, relsOf_congr h htrails]
  congr 1
  refine List.map_congr_left fun j _ ↦ ?_
  split_ifs with hj
  · exact hends j hj
  · rfl

theorem Taken.known {n anchor d i : ℕ} (h : Taken n anchor d i) :
    Known n anchor d i ∧ Known n anchor d (i + 1) := by
  simp only [Taken, Known] at h ⊢
  omega

theorem trailFits_iff {rel : RelPattern} (hrel : ex.q.rels[i]? = some rel) {a b : NodeId}
    {es : List EdgeId} : Walk (ex.Leads i forward) a es b ∧ rel.Within es.length ↔
      ex.TrailFits i (if forward then a else b) (orient forward es) (if forward then b else a) := by
  cases forward with
  | true => simp [TrailFits, orient, hrel]
  | false =>
    have hback : ex.Leads i false = fun x e y ↦ ex.Leads i true y e x := by
      funext x e y
      exact propext leads_back
    rw [walk_reverse, hback]
    simp [TrailFits, orient, hrel]

variable (ex) in
/-- How the search goes on from a frame: over the trails from the node that the next step starts
from to the nodes that match. -/
structure Onward (anchor d : ℕ) (m : PatternMatch) where
  i : ℕ
  forward : Bool
  rel : RelPattern
  origin : NodeId
  out : List (NodeId × List EdgeId)
  step : (ex.stepsFrom anchor)[d]? = some (i, forward)
  advances : Advances ex.q.rels.length anchor d i forward
  rel_eq : ex.q.rels[i]? = some rel
  origin_eq : m.ends[(stepEnds i forward).1]? = some origin
  mem : ∀ b es, (b, es) ∈ out ↔ ex.NodeFits (stepEnds i forward).2 b ∧
    (Walk (ex.Leads i forward) origin es b ∧ rel.Within es.length) ∧ es.Nodup ∧
      ∀ e ∈ es, e ∉ (ex.frameOf anchor d m).used
  nodup : rel.Distinct → (out.map Prod.snd).Nodup

/-- The frames one step further. -/
def Onward.frames (o : ex.Onward anchor d m) : List Frame :=
  o.out.map ((ex.frameOf anchor d m).advance o.i o.forward)

/-- **What a frame is replaced by**: the frames one step further. -/
theorem Ready.visit_frameOf [Unicode] (hr : ex.Ready) (h : anchor ≤ ex.q.rels.length)
    (hd : d < ex.q.rels.length) (hp : ex.Partial anchor d m) : ∃ o : ex.Onward anchor d m,
      ∀ limit found, ex.visit (ex.stepsFrom anchor) limit found (ex.frameOf anchor d m) =
        .ok (.push o.frames.reverse) := by
  obtain ⟨i, forward, hstep, hadv⟩ := exists_advances h hd
  have hle : ∀ j, j = (stepEnds i forward).1 ∨ j = (stepEnds i forward).2 →
      j < ex.q.nodes.length := by
    have := hadv.lt
    have := hr.chain
    rintro j (rfl | rfl) <;> cases forward <;> simp [stepEnds] <;> omega
  have hsrc := hle _ (.inl rfl)
  have hdst := hle _ (.inr rfl)
  have hrel := List.getElem?_eq_getElem hadv.lt
  have hprops := List.getElem?_eq_getElem (hr.relProps ▸ hadv.lt)
  obtain ⟨origin, horigin⟩ : ∃ origin, m.ends[(stepEnds i forward).1]? = some origin :=
    ⟨_, List.getElem?_eq_getElem (hp.ends_length ▸ hsrc)⟩
  obtain ⟨out, hout, hmem, hnodup⟩ :=
    expand_spec hr.edges hrel hprops origin forward (ex.frameOf anchor d m).used
  choose fits hfits hiff using hr.nodeMatches_spec hdst
  refine ⟨⟨i, forward, _, origin, out.filter fun x ↦ fits x.1, hstep, hadv, hrel, horigin,
    fun b es ↦ ?_, fun hdistinct ↦ ?_⟩, fun limit found ↦ ?_⟩
  · rw [List.mem_filter, hmem, hiff]
    tauto
  · exact (hnodup hdistinct).sublist (List.filter_sublist.map _)
  · have hposition : positionOf "steps extend from a bound node"
        (ex.frameOf anchor d m).positions (stepEnds i forward).1 = .ok origin := by
      rw [positionOf, nth_eq_ok.mpr (getElem?_positions anchor d m hsrc), if_pos hadv.src, horigin]
      rfl
    have hframes : (out.reverse.flatMap fun x ↦ if fits x.1 then
        [(ex.frameOf anchor d m).advance i forward x] else []) = ((out.filter fun x ↦ fits x.1).map
          ((ex.frameOf anchor d m).advance i forward)).reverse := by
      rw [← List.map_reverse, ← List.filter_reverse]
      induction out.reverse with
      | nil => rfl
      | cons x l ih =>
        rw [List.flatMap_cons, ih, List.filter_cons]
        split <;> simp
    rw [visit, if_neg (by rw [length_stepsFrom h]; exact hd.ne),
      show (ex.frameOf anchor d m).depth = d from rfl, nth_eq_ok.mpr hstep]
    simp only [Except.ok_bind, hposition, hout]
    rw [Except.foldlM_append (f := fun x ↦ if fits x.1 then
      [(ex.frameOf anchor d m).advance i forward x] else [])]
    · rw [Except.ok_bind, List.nil_append, hframes]
      rfl
    · rintro ⟨b, es⟩ - acc
      simp only [hfits, Except.ok_bind]
      cases fits b <;> simp <;> rfl

/-! ## One step -/

namespace Onward

variable (o : ex.Onward anchor d m)

/-- **Every frame one step further is that of a match**, with the same node at the anchor. -/
theorem sound (hr : ex.Ready) (h : anchor ≤ ex.q.rels.length) (hp : ex.Partial anchor d m)
    {c : Frame} (hc : c ∈ o.frames) : ∃ m', ex.Partial anchor (d + 1) m' ∧
      c = ex.frameOf anchor (d + 1) m' ∧ m'.ends[anchor]? = m.ends[anchor]? := by
  obtain ⟨⟨b, es⟩, hb, rfl⟩ := List.mem_map.mp hc
  obtain ⟨i, forward, rel, origin, out, hstep, hadv, hrel, horigin, hmem, _⟩ := o
  obtain ⟨hfits, hwalk, hnodup, hused⟩ := (hmem b es).mp hb
  have hchain := hr.chain
  have hlt := hadv.lt
  have hdst : (stepEnds i forward).2 < m.ends.length := by
    rw [hp.ends_length]
    cases forward <;> simp [stepEnds] <;> omega
  have hne : (stepEnds i forward).1 ≠ (stepEnds i forward).2 := by
    cases forward <;> simp [stepEnds]
  let m' : PatternMatch :=
    ⟨m.ends.set (stepEnds i forward).2 b, m.trails.set i (orient forward es)⟩
  have hends : ∀ j, Known ex.q.rels.length anchor d j → m.ends[j]? = m'.ends[j]? := by
    intro j hj
    have hj' : (stepEnds i forward).2 ≠ j := by
      rintro rfl
      exact hadv.dst hj
    rw [List.getElem?_set_ne hj']
  have htrails : ∀ k, Taken ex.q.rels.length anchor d k → m.trails[k]? = m'.trails[k]? := by
    intro k hk
    have hk' : i ≠ k := by
      rintro rfl
      exact hadv.fresh hk
    rw [List.getElem?_set_ne hk']
  have hnew : m'.ends[(stepEnds i forward).2]? = some b := List.getElem?_set_self hdst
  have htrail : m'.trails[i]? = some (orient forward es) :=
    List.getElem?_set_self (hp.trails_length ▸ hlt)
  have hrels := relsOf_congr h htrails
  have hendsLength : m'.ends.length = ex.q.nodes.length := List.length_set.trans hp.ends_length
  have htrailsLength : m'.trails.length = ex.q.rels.length :=
    List.length_set.trans hp.trails_length
  refine ⟨m', ⟨hendsLength, htrailsLength, ?_, ?_, ?_⟩, ?_, ?_⟩
  · intro j id hj hid
    have hjlt : j < ex.q.nodes.length := hendsLength ▸ (List.getElem?_eq_some_iff.mp hid).1
    rcases (hadv.known j (by omega)).mp hj with hj | rfl
    · exact hp.node j id hj ((hends j hj).trans hid)
    · obtain rfl := Option.some.inj (hnew.symm.trans hid)
      exact hfits
  · intro k a es' b' hk ha hes hb'
    have hklt : k < ex.q.rels.length := htrailsLength ▸ (List.getElem?_eq_some_iff.mp hes).1
    rcases (hadv.taken k hklt).mp hk with hk | rfl
    · exact hp.trail k a es' b' hk ((hends k hk.known.1).trans ha) ((htrails k hk).trans hes)
        ((hends _ hk.known.2).trans hb')
    · obtain rfl := Option.some.inj (htrail.symm.trans hes)
      have hfrom := (hends _ hadv.src).symm.trans horigin
      have hfit := (trailFits_iff hrel).mp hwalk
      cases forward with
      | true =>
        obtain rfl := Option.some.inj (hfrom.symm.trans ha)
        obtain rfl := Option.some.inj (hnew.symm.trans hb')
        exact hfit
      | false =>
        obtain rfl := Option.some.inj (hnew.symm.trans ha)
        obtain rfl := Option.some.inj (hfrom.symm.trans hb')
        exact hfit
  · rw [relsOf_succ hstep, ← hrels, htrail, Option.getD_some, orient_orient, List.flatMap_append,
      List.nodup_append]
    refine ⟨hp.once, by simpa using hnodup, fun e he e' he' ↦ ?_⟩
    rintro rfl
    exact hused e (by simpa using he') he
  · rw [frameOf_succ hr.chain hstep hadv hnew, ← frameOf_congr h hends htrails, htrail,
      Option.getD_some, orient_orient]
  · -- the anchor was known from the start
    exact (hends anchor ⟨Nat.le_add_right _ _, .inl le_rfl⟩).symm

/-- **The frame of a match is among those one step further.** -/
theorem complete (hr : ex.Ready) (hp : ex.Partial anchor (d + 1) m) :
    ex.frameOf anchor (d + 1) m ∈ o.frames := by
  obtain ⟨i, forward, rel, origin, out, hstep, hadv, hrel, horigin, hmem, -⟩ := o
  have hchain := hr.chain
  have hlt := hadv.lt
  have hdst : (stepEnds i forward).2 < m.ends.length := by
    rw [hp.ends_length]
    cases forward <;> simp [stepEnds] <;> omega
  obtain ⟨b, hb⟩ : ∃ b, m.ends[(stepEnds i forward).2]? = some b :=
    ⟨_, List.getElem?_eq_getElem hdst⟩
  obtain ⟨es, hes⟩ : ∃ es, m.trails[i]? = some es :=
    ⟨_, List.getElem?_eq_getElem (hp.trails_length ▸ hlt)⟩
  have honce := hp.once
  rw [relsOf_succ hstep, hes, List.flatMap_append, List.nodup_append] at honce
  obtain ⟨-, hnodup, hused⟩ := honce
  rw [frameOf_succ hr.chain hstep hadv hb, hes, Option.getD_some]
  refine List.mem_map_of_mem ((hmem _ _).mpr ⟨?_, (trailFits_iff hrel).mpr ?_, by simpa using hnodup,
    fun e he he' ↦ hused e he' e (by simpa using he) rfl⟩)
  · exact hp.node _ b ((hadv.known _ (by rw [hp.ends_length] at hdst; omega)).mpr (.inr rfl)) hb
  · rw [orient_orient]
    have htaken := (hadv.taken i hlt).mpr (.inr rfl)
    cases forward with
    | true => exact hp.trail i origin es b htaken horigin hes hb
    | false => exact hp.trail i b es origin htaken hb hes horigin

theorem nodup_rels (hdistinct : ∀ rel ∈ ex.q.rels, rel.Distinct) :
    (o.frames.map Frame.rels).Nodup := by
  have := o.nodup (hdistinct _ (List.mem_of_getElem? o.rel_eq))
  have := this.map (f := fun es ↦ (ex.frameOf anchor d m).rels ++ [(o.i, es)]) fun es es' h ↦ by
    simpa using h
  rw [List.map_map] at this
  rw [frames, List.map_map]
  exact this

end Onward

/-! ## The leaves

The loop over the stack is a walk through a tree of frames. Its leaves are complete frames, and its
depth is the number of relationships. -/

theorem Partial.mono {d' : ℕ} (hp : ex.Partial anchor d' m) (hd : d ≤ d') :
    ex.Partial anchor d m where
  ends_length := hp.ends_length
  trails_length := hp.trails_length
  node j id hj := hp.node j id (by simp only [Known] at hj ⊢; omega)
  trail i a es b hi := hp.trail i a es b (by simp only [Taken] at hi ⊢; omega)
  once := by
    have hsub : (ex.relsOf anchor d m).Sublist (ex.relsOf anchor d' m) :=
      (List.take_sublist_take_left hd).map _
    exact hp.once.sublist (hsub.flatMap _)

theorem startFrame_eq (h : anchor ≤ ex.q.rels.length) (hc : ex.q.nodes.length = ex.q.rels.length + 1)
    {start : NodeId} (hstart : m.ends[anchor]? = some start) :
    ex.startFrame anchor start = ex.frameOf anchor 0 m := by
  rw [startFrame, frameOf]
  congr 1
  refine List.ext_getElem? fun j ↦ ?_
  rw [List.getElem?_set, List.getElem?_map, List.length_replicate]
  by_cases hj : j < ex.q.nodes.length
  · rw [List.getElem?_range hj, Option.map_some, List.getElem?_replicate, if_pos hj]
    by_cases hanchor : anchor = j
    · subst hanchor
      rw [if_pos rfl, if_pos hj, if_pos ⟨Nat.le_add_right _ _, .inl le_rfl⟩, hstart]
    · have hknown : ¬Known ex.q.rels.length anchor 0 j := by
        simp only [Known]
        omega
      rw [if_neg hanchor, if_neg hknown]
  · rw [if_neg (by omega), List.getElem?_replicate, if_neg hj, List.getElem?_eq_none (by simpa using hj)]
    rfl

section Leaves

variable [Unicode]

variable (ex) in
/-- The frames that take the place of a frame. -/
def children (anchor : ℕ) (f : Frame) : List Frame :=
  match ex.visit (ex.stepsFrom anchor) none [] f with
  | .ok (.push frames) => frames.reverse
  | _ => []

variable (ex) in
/-- What the search does with a complete frame. -/
def finish (limit : Option ℕ) (found : List Binding) (f : Frame) :
    Except BknError (List Binding × Bool) := do
  let (b, consistent) ← ex.bindNodes f.positions
  if !consistent then return (found, false)
  let b ← ex.bindRels f.rels b
  if !(← ex.passes b) then return (found, false)
  return (found ++ [b], limit.any (· ≤ (found ++ [b]).length))

theorem visit_complete {steps : List (ℕ × Bool)} {f : Frame} (h : f.depth = steps.length)
    (limit : Option ℕ) (found : List Binding) :
    ex.visit steps limit found f = (ex.finish limit found f).map .ofLeaf := by
  rw [visit, if_pos h, finish]
  rcases ex.bindNodes f.positions with e | ⟨b, consistent⟩
  · rfl
  simp only [Except.ok_bind]
  cases consistent
  · rfl
  rcases ex.bindRels f.rels b with e | b
  · rfl
  simp only [Except.ok_bind]
  rcases ex.passes b with e | ok
  · rfl
  simp only [Except.ok_bind]
  cases ok
  · rfl
  generalize limit.any (· ≤ (found ++ [b]).length) = stop
  cases stop <;> rfl

variable (ex) in
/-- A frame of the search from a candidate, some levels above the leaves. -/
def Below (anchor : ℕ) (start : NodeId) (k : ℕ) (f : Frame) : Prop :=
  ∃ d m, d + k = ex.q.rels.length ∧ ex.Partial anchor d m ∧ m.ends[anchor]? = some start ∧
    f = ex.frameOf anchor d m

theorem Below.children (hr : ex.Ready) (h : anchor ≤ ex.q.rels.length) {start : NodeId} {k : ℕ}
    {f : Frame} (hf : ex.Below anchor start (k + 1) f) : ∃ d m, ∃ o : ex.Onward anchor d m,
      d + (k + 1) = ex.q.rels.length ∧ ex.Partial anchor d m ∧ m.ends[anchor]? = some start ∧
      f = ex.frameOf anchor d m ∧ ex.children anchor f = o.frames ∧
      ∀ limit found, ex.visit (ex.stepsFrom anchor) limit found f =
        .ok (.push o.frames.reverse) := by
  obtain ⟨d, m, hdk, hp, hstart, rfl⟩ := hf
  obtain ⟨o, ho⟩ := hr.visit_frameOf h (by omega) hp
  exact ⟨d, m, o, hdk, hp, hstart, rfl, by simp [Exec.children, ho], ho⟩

/-- **The loop walks through the frames of the matches.** -/
theorem Ready.walks (hr : ex.Ready) (h : anchor ≤ ex.q.rels.length) (start : NodeId)
    (limit : Option ℕ) : Dfs.Walks (ex.visit (ex.stepsFrom anchor) limit) (ex.children anchor)
      (ex.finish limit) (ex.Below anchor start) where
  inner k f found hf := by
    obtain ⟨d, m, o, -, -, -, -, hchildren, hvisit⟩ := hf.children hr h
    rw [hvisit, hchildren]
  child k f hf c hc := by
    obtain ⟨d, m, o, hdk, hp, hstart, -, hchildren, -⟩ := hf.children hr h
    rw [hchildren] at hc
    obtain ⟨m', hp', rfl, hanchor⟩ := o.sound hr h hp hc
    exact ⟨d + 1, m', by omega, hp', hanchor.trans hstart, rfl⟩
  leaf f found hf := by
    obtain ⟨d, m, hdk, -, -, rfl⟩ := hf
    exact visit_complete (by rw [length_stepsFrom h]; exact hdk) limit found

omit [Unicode] in
theorem Ready.below_startFrame (hr : ex.Ready) (h : anchor ≤ ex.q.rels.length) {start : NodeId}
    (hfits : ex.NodeFits anchor start) :
    ex.Below anchor start ex.q.rels.length (ex.startFrame anchor start) := by
  have hc := hr.chain
  let m : PatternMatch :=
    ⟨List.replicate ex.q.nodes.length start, List.replicate ex.q.rels.length []⟩
  have hstart : m.ends[anchor]? = some start := by
    rw [List.getElem?_replicate, if_pos (by omega)]
  refine ⟨0, m, by omega, ⟨by simp [m], by simp [m], fun j id hj hid ↦ ?_,
    fun i a es b hi _ hes _ ↦ ?_, by simp [relsOf]⟩, hstart, startFrame_eq h hc hstart⟩
  · have hjlt : j < ex.q.nodes.length := by
      have := (List.getElem?_eq_some_iff.mp hid).1
      simpa [m] using this
    simp only [Known] at hj
    obtain rfl : j = anchor := by omega
    obtain rfl := Option.some.inj (hstart.symm.trans hid)
    exact hfits
  · simp only [Taken] at hi
    have := (List.getElem?_eq_some_iff.mp hes).1
    simp [m] at this
    omega

/-- **The leaves of the search from a candidate** are the frames of the matches with the candidate at
the anchor. -/
theorem Ready.mem_leaves (hr : ex.Ready) (h : anchor ≤ ex.q.rels.length) {start : NodeId}
    (hfits : ex.NodeFits anchor start) {f : Frame} :
    f ∈ Dfs.leaves (ex.children anchor) ex.q.rels.length (ex.startFrame anchor start) ↔
      ∃ m, ex.Partial anchor ex.q.rels.length m ∧ m.ends[anchor]? = some start ∧
        f = ex.frameOf anchor ex.q.rels.length m := by
  have hw := hr.walks h start none
  constructor
  · intro hf
    obtain ⟨d, m, hd, hp, hstart, rfl⟩ :=
      Dfs.leaves_of hw.child (hr.below_startFrame h hfits) hf
    obtain rfl : d = ex.q.rels.length := by omega
    exact ⟨m, hp, hstart, rfl⟩
  · rintro ⟨m, hp, hstart, rfl⟩
    rw [startFrame_eq h hr.chain hstart]
    refine Dfs.mem_leaves (fun d ↦ ex.frameOf anchor d m) fun d hd ↦ ?_
    obtain ⟨o, ho⟩ := hr.visit_frameOf h hd (hp.mono hd.le)
    rw [children, ho]
    simp only [List.reverse_reverse]
    exact o.complete hr (hp.mono hd)

/-- No two leaves have the same edges. -/
theorem Ready.nodup_leaves (hr : ex.Ready) (h : anchor ≤ ex.q.rels.length)
    (hdistinct : ∀ rel ∈ ex.q.rels, rel.Distinct) {start : NodeId}
    (hfits : ex.NodeFits anchor start) :
    ((Dfs.leaves (ex.children anchor) ex.q.rels.length (ex.startFrame anchor start)).map
      Frame.rels).Nodup := by
  have hw := hr.walks h start none
  refine (Dfs.nodup_leaves hw.child (fun k f hf c hc ↦ ?_) (fun k f hf ↦ ?_)
    (hr.below_startFrame h hfits)).1
  · obtain ⟨d, m, o, -, -, -, rfl, hchildren, -⟩ := hf.children hr h
    rw [hchildren] at hc
    obtain ⟨x, -, rfl⟩ := List.mem_map.mp hc
    exact ⟨_, rfl⟩
  · obtain ⟨d, m, o, -, -, -, -, hchildren, -⟩ := hf.children hr h
    rw [hchildren]
    exact o.nodup_rels hdistinct

end Leaves

end Exec

end Match
