import Mathlib.Data.List.Sort
import Bkndb.Graph.NodePart

/-!
# Indexed lookups

A lookup by a registered property returns the nodes whose index entry starts with the key of the
value that is sought. Values of one kind have entries of their own. The kinds are not told apart:
an integer is eight bytes and a string is its bytes and a zero, so a string of seven bytes has the
key of an integer, and a shorter or a longer one can start or be started by one. Then a lookup
returns nodes that a scan would not, and it does so exactly when such a node has the label.

## Main results

* `findNodesIn_complete`: an indexed lookup misses no node that matches, and returns none twice.
* `findsExactly_iff_of_run`: in every state of a run, it returns what a scan returns exactly when
  no node with the label holds a value that coincides with the one sought.

Nothing is asked of the edge types of the run, since the invariant used is that of the node part.
-/

namespace Graph

/-- The key of the value sought starts the entry of a node that holds a value of the other kind. -/
def Coincides : PropValue → PropValue → NodeId → Prop
  | .int i, .str t, id => 0 ∉ t.utf8 ∧
      Bytes.be 8 (PropValue.flipSign i).toNat <+: t.utf8 ++ [0] ++ nodeKey id
  | .str t, .int i, id => 0 ∉ t.utf8 ∧
      t.utf8 ++ [0] <+: Bytes.be 8 (PropValue.flipSign i).toNat ++ nodeKey id
  | _, _, _ => False

variable {v w : PropValue} {a b : Bytes} {id : NodeId}

theorem indexValueKey_str {t : String} :
    indexValueKey (.str t) = some a ↔ 0 ∉ t.utf8 ∧ a = t.utf8 ++ [0] := by
  simp [indexValueKey, PropValue.sortableKey, eq_comm]

theorem indexValueKey_int {i : Int64} :
    indexValueKey (.int i) = some a ↔ a = Bytes.be 8 (PropValue.flipSign i).toNat := by
  simp [indexValueKey, PropValue.sortableKey, eq_comm]

theorem Coincides.spec (h : Coincides v w id) : ∃ a b, indexValueKey v = some a ∧
    indexValueKey w = some b ∧ a <+: b ++ nodeKey id ∧ PropValue.eqv w v = false := by
  unfold Coincides at h
  split at h
  · exact ⟨_, _, indexValueKey_int.mpr rfl, indexValueKey_str.mpr ⟨h.1, rfl⟩, h.2, rfl⟩
  · exact ⟨_, _, indexValueKey_str.mpr ⟨h.1, rfl⟩, indexValueKey_int.mpr rfl, h.2, rfl⟩
  · exact h.elim

theorem indexValueKey_cases (h : indexValueKey v = some a) :
    (∃ i, v = .int i ∧ a = Bytes.be 8 (PropValue.flipSign i).toNat) ∨
      ∃ t, v = .str t ∧ 0 ∉ t.utf8 ∧ a = t.utf8 ++ [0] := by
  cases v with
  | int i => exact .inl ⟨i, rfl, indexValueKey_int.mp h⟩
  | str t => exact .inr ⟨t, rfl, indexValueKey_str.mp h⟩
  | _ => cases h

theorem key_isPrefix_iff (hv : indexValueKey v = some a) (hw : indexValueKey w = some b) :
    a <+: b ++ nodeKey id ↔ PropValue.eqv w v = true ∨ Coincides v w id := by
  rcases indexValueKey_cases hv with ⟨i, rfl, rfl⟩ | ⟨s, rfl, hs, rfl⟩ <;>
    rcases indexValueKey_cases hw with ⟨j, rfl, rfl⟩ | ⟨t, rfl, ht, rfl⟩
  · -- integers have keys of one length
    simp only [PropValue.eqv, beq_iff_eq, Coincides, or_false]
    constructor
    · rintro ⟨rest, h⟩
      exact (PropValue.be_flipSign_injective (List.append_inj h (by simp)).1).symm
    · rintro rfl
      exact List.prefix_append _ _
  · simp [PropValue.eqv, Coincides, ht]
  · simp [PropValue.eqv, Coincides, hs]
  · -- a string's key ends at its zero
    simp only [PropValue.eqv, beq_iff_eq, Coincides, or_false]
    constructor
    · rintro ⟨rest, h⟩
      simp only [List.append_assoc, List.singleton_append] at h
      exact (String.utf8_injective (Bytes.terminated_inj hs ht h).1).symm
    · rintro rfl
      exact List.prefix_append _ _

theorem indexValueKey_congr (h : PropValue.eqv w v = true) : indexValueKey w = indexValueKey v := by
  cases v <;> cases w <;> simp_all [PropValue.eqv, indexValueKey]

end Graph

namespace GraphStore

open Graph

variable {s : GraphStore} {label property : String} {v : PropValue}

/-! ## Lookups

`Matching` is what a lookup is for, and determines its list. A scan returns it always; an indexed
lookup is compared with it entry by entry. -/

/-- The nodes with a label whose property equals a value, ascending. -/
structure Matching (s : GraphStore) (label property : String) (v : PropValue) (ids : List NodeId) :
    Prop where
  /-- Ascending. -/
  sorted : ids.Pairwise fun a b ↦ a.id.toNat < b.id.toNat
  /-- The nodes that match. -/
  mem : ∀ id, id ∈ ids ↔ ∃ r, s.getNodeIn id = some r ∧ r.label = label ∧
    PropValue.eqvOption (r.properties.get? property) (some v) = true

theorem Matching.unique {ids ids' : List NodeId} (h : s.Matching label property v ids)
    (h' : s.Matching label property v ids') : ids = ids' := by
  have hanti : Std.Antisymm fun a b : NodeId ↦ a.id.toNat < b.id.toNat :=
    ⟨fun _ _ hab hba ↦ absurd hab (lt_asymm hba)⟩
  have hirrefl : Std.Irrefl fun a b : NodeId ↦ a.id.toNat < b.id.toNat := ⟨fun _ ↦ lt_irrefl _⟩
  exact h.sorted.eq_of_mem_iff h'.sorted fun id ↦ (h.mem id).trans (h'.mem id).symm

/-- **A scan of a label's nodes returns those that match.** -/
theorem scanNodesIn_spec (hs : s.LabelsOk) (hl : ShortName label) :
    ∃ ids, s.scanNodesIn label property v = .ok ids ∧ s.Matching label property v ids := by
  obtain ⟨ids, hids, hby⟩ := nodesByLabelIn_spec hs (.inl hl)
  rw [scanNodesIn, hids, Except.ok_bind]
  refine ⟨_, rfl, hby.sorted.filter _, fun id ↦ ?_⟩
  rw [List.mem_filter, hby.mem, getNodeIn]
  constructor
  · rintro ⟨⟨r, hget, hlabel⟩, hmatch⟩
    rw [hget] at hmatch
    exact ⟨r, hget, hlabel, hmatch⟩
  · rintro ⟨r, hget, hlabel, hmatch⟩
    rw [hget]
    exact ⟨⟨r, rfl, hlabel⟩, hmatch⟩

/-- A node with a label has an entry that starts with a key: the key `b` of its own value. -/
def Hit (s : GraphStore) (label property : String) (enc : Bytes) (id : NodeId) (b : Bytes) : Prop :=
  ∃ r w, s.getNodeIn id = some r ∧ r.label = label ∧ r.properties.get? property = some w ∧
    indexValueKey w = some b ∧ enc <+: b ++ nodeKey id

/-- An indexed lookup reads the entries that start with a key, each of a node with a hit. -/
theorem findNodesIn_entries {enc : Bytes} (hp : s.PropsOk) (hreg : s.Registered label property)
    (hv : indexValueKey v = some enc) : ∃ ids pre, s.findNodesIn label property v = .ok ids ∧
      List.Forall₂ (fun k id ↦ ∃ b, s.Hit label property enc id b ∧ k = pre ++ (b ++ nodeKey id))
        (scanPrefix s.nodeProps (pre ++ enc)) ids ∧
      ∀ id b, s.Hit label property enc id b →
        s.nodeProps.contains (pre ++ (b ++ nodeKey id)) = true := by
  obtain ⟨hl, hpr⟩ := hreg.shortNames
  obtain ⟨reg, hregkey, hin⟩ := id hreg
  replace hin : (s.metaTable.get? reg).isSome = true := hin
  obtain ⟨pre, hpre⟩ : ∃ pre, propPrefix label property = .ok pre :=
    ⟨_, propPrefix_eq_ok.mpr ⟨⟨hl, hpr⟩, rfl⟩⟩
  have hentry : ∀ {w b id}, indexValueKey w = some b →
      propEntry label property (some w) id = .ok (some (pre ++ (b ++ nodeKey id))) := by
    intro w b id hb
    refine propEntry_eq_some.mpr ⟨w, b, rfl, hb, ⟨hl, hpr⟩, ?_⟩
    rw [(propPrefix_eq_ok.mp hpre).2, ← List.append_assoc]
  have hfind : s.findNodesIn label property v =
      (scanPrefix s.nodeProps (pre ++ enc)).mapM trailingNodeId := by
    rw [findNodesIn, hv]
    dsimp only
    rw [hregkey, Except.ok_bind, if_pos hin, hpre, Except.ok_bind]
  rw [hfind]
  obtain ⟨ids, hids, hR⟩ := Except.mapM_exists (l := scanPrefix s.nodeProps (pre ++ enc))
    (f := trailingNodeId) (Q := fun k id ↦ ∃ b, s.Hit label property enc id b ∧
      k = pre ++ (b ++ nodeKey id)) (by
      intro k hk
      obtain ⟨hin, hstarts⟩ := mem_scanPrefix.mp hk
      obtain ⟨id, r, p, hget, -, he⟩ := (hp k).mp hin
      obtain ⟨rfl, rfl⟩ := (propPrefix_isPrefix hpre he).mp ((List.prefix_append _ _).trans hstarts)
      obtain ⟨w, b, hw, hb, -⟩ := propEntry_eq_some.mp he
      rw [hw, hentry hb] at he
      obtain rfl : pre ++ (b ++ nodeKey id) = k := Option.some.inj (Except.ok.inj he)
      refine ⟨id, ?_, b,
        ⟨r, w, hget, rfl, hw, hb, (List.prefix_append_right_inj _).mp hstarts⟩, rfl⟩
      rw [← List.append_assoc, trailingNodeId_append])
  refine ⟨ids, pre, hids, hR, ?_⟩
  rintro id b ⟨r, w, hget, rfl, hw, hb, -⟩
  exact (hp _).mpr ⟨id, r, property, hget, hreg, by rw [hw, hentry hb]⟩

/-- **What an indexed lookup returns**: the nodes with an entry that starts with the key, ascending
when the key is that of all their values. -/
theorem findNodesIn_spec {enc : Bytes} (hp : s.PropsOk) (hreg : s.Registered label property)
    (hv : indexValueKey v = some enc) : ∃ ids, s.findNodesIn label property v = .ok ids ∧
      (∀ id, id ∈ ids ↔ ∃ b, s.Hit label property enc id b) ∧
      ((∀ id b, s.Hit label property enc id b → b = enc) →
        ids.Pairwise fun a b ↦ a.id.toNat < b.id.toNat) := by
  obtain ⟨ids, pre, hids, hR, hin⟩ := findNodesIn_entries hp hreg hv
  refine ⟨ids, hids, fun id ↦ ⟨fun hid ↦ ?_, ?_⟩, fun hkey ↦ ?_⟩
  · obtain ⟨k, -, b, hit, -⟩ := hR.exists_left hid
    exact ⟨b, hit⟩
  · rintro ⟨b, hit⟩
    have hstarts : enc <+: b ++ nodeKey id := by
      obtain ⟨-, -, -, -, -, -, hstarts⟩ := hit
      exact hstarts
    obtain ⟨id', hid', b', -, heq⟩ := hR.exists_right
      (mem_scanPrefix.mpr ⟨hin id b hit, (List.prefix_append_right_inj _).mpr hstarts⟩)
    rwa [nodeKey_injective (List.append_inj' (List.append_cancel_left heq) (by simp)).2]
  · refine hR.pairwise_right (scanPrefix_sorted _ _) ?_
    rintro _ _ a c ⟨b, hit, rfl⟩ ⟨b', hit', rfl⟩ hlt
    rw [hkey _ _ hit, hkey _ _ hit', Bytes.append_lt_append_iff, Bytes.append_lt_append_iff] at hlt
    exact nodeKey_lt_iff.mp hlt

theorem findNodesIn_nodup {enc : Bytes} (hp : s.PropsOk) (hreg : s.Registered label property)
    (hv : indexValueKey v = some enc) {ids : List NodeId}
    (h : s.findNodesIn label property v = .ok ids) : ids.Nodup := by
  obtain ⟨ids', pre, hids, hR, -⟩ := findNodesIn_entries hp hreg hv
  obtain rfl := Except.ok.inj (hids.symm.trans h)
  refine hR.pairwise_right (scanPrefix_sorted _ _) ?_
  rintro _ _ a c ⟨b, ⟨r, w, hget, -, hw, hb, -⟩, rfl⟩ ⟨b', ⟨r', w', hget', -, hw', hb', -⟩, rfl⟩ hlt
  rintro rfl
  -- a node has one value, and so one entry
  obtain rfl := Option.some.inj (hget.symm.trans hget')
  obtain rfl := Option.some.inj (hw.symm.trans hw')
  obtain rfl := Option.some.inj (hb.symm.trans hb')
  exact lt_irrefl _ hlt

/-- An indexed lookup returns the nodes that match, and so the list that a scan returns. -/
def FindsExactly (s : GraphStore) (label property : String) (v : PropValue) : Prop :=
  ∃ ids, s.findNodesIn label property v = .ok ids ∧ s.scanNodesIn label property v = .ok ids ∧
    s.Matching label property v ids

theorem hit_iff {enc : Bytes} {id : NodeId} (hv : indexValueKey v = some enc) :
    (∃ b, s.Hit label property enc id b) ↔ ∃ r w, s.getNodeIn id = some r ∧ r.label = label ∧
      r.properties.get? property = some w ∧
        (PropValue.eqv w v = true ∨ Coincides v w id) := by
  constructor
  · rintro ⟨b, r, w, hget, hlabel, hw, hb, hstarts⟩
    exact ⟨r, w, hget, hlabel, hw, (key_isPrefix_iff hv hb).mp hstarts⟩
  · rintro ⟨r, w, hget, hlabel, hw, hmatch⟩
    obtain ⟨b, hb⟩ : ∃ b, indexValueKey w = some b := by
      rcases hmatch with heq | hco
      · exact ⟨enc, (indexValueKey_congr heq).trans hv⟩
      · obtain ⟨-, b, -, hb, -⟩ := hco.spec
        exact ⟨b, hb⟩
    exact ⟨b, r, w, hget, hlabel, hw, hb, (key_isPrefix_iff hv hb).mpr hmatch⟩

/-- **An indexed lookup misses no node that matches**, and returns none twice. -/
theorem findNodesIn_complete (hs : s.LabelsOk) (hp : s.PropsOk) (hreg : s.Registered label property)
    (v : PropValue) : ∃ ids, s.findNodesIn label property v = .ok ids ∧ ids.Nodup ∧
      ∀ id r, s.getNodeIn id = some r → r.label = label →
        PropValue.eqvOption (r.properties.get? property) (some v) = true → id ∈ ids := by
  cases hv : indexValueKey v with
  | none =>
    obtain ⟨ids, hids, hmatch⟩ : ∃ ids, s.scanNodesIn label property v = .ok ids ∧
        s.Matching label property v ids := scanNodesIn_spec hs hreg.shortNames.1
    refine ⟨ids, by rw [findNodesIn, hv, hids], ?_, fun id r hget hlabel heq ↦ ?_⟩
    · exact hmatch.sorted.imp fun hlt heq ↦ (heq ▸ hlt).false
    · exact (hmatch.mem id).mpr ⟨r, hget, hlabel, heq⟩
  | some enc =>
    obtain ⟨ids, hids, hmem, -⟩ := findNodesIn_spec hp hreg hv
    refine ⟨ids, hids, findNodesIn_nodup hp hreg hv hids, fun id r hget hlabel heq ↦ ?_⟩
    cases hw : r.properties.get? property with
    | none => simp [hw, PropValue.eqvOption] at heq
    | some w =>
      rw [hw] at heq
      exact (hmem id).mpr ((hit_iff hv).mpr ⟨r, w, hget, hlabel, hw, .inl heq⟩)

/-- **When an indexed lookup is the scan**: no node with the label holds a value of the other kind
whose entry starts with the key sought. -/
theorem findsExactly_iff (hs : s.LabelsOk) (hp : s.PropsOk) (hreg : s.Registered label property) :
    s.FindsExactly label property v ↔ ∀ id r w, s.getNodeIn id = some r → r.label = label →
      r.properties.get? property = some w → ¬Coincides v w id := by
  obtain ⟨scanned, hscan, hmatch⟩ : ∃ ids, s.scanNodesIn label property v = .ok ids ∧
      s.Matching label property v ids := scanNodesIn_spec hs hreg.shortNames.1
  constructor
  · rintro ⟨ids, hids, -, hids'⟩ id r w hget hlabel hw hco
    obtain ⟨enc, b, hv, -, -, hne⟩ := hco.spec
    obtain ⟨found, hfound, hmem, -⟩ := findNodesIn_spec hp hreg hv
    obtain rfl := Except.ok.inj (hfound.symm.trans hids)
    obtain ⟨r', hget', -, heqv⟩ := (hids'.mem id).mp ((hmem id).mpr ((hit_iff hv).mpr
      ⟨r, w, hget, hlabel, hw, .inr hco⟩))
    obtain rfl := Option.some.inj (hget.symm.trans hget')
    rw [hw, PropValue.eqvOption, hne] at heqv
    cases heqv
  · intro hno
    cases hv : indexValueKey v with
    | none =>
      refine ⟨scanned, ?_, hscan, hmatch⟩
      rw [findNodesIn, hv, hscan]
    | some enc =>
      obtain ⟨found, hfound, hmem, hsorted⟩ := findNodesIn_spec hp hreg hv
      have hfound' : s.Matching label property v found := by
        refine ⟨hsorted ?_, fun id ↦ (hmem id).trans ((hit_iff hv).trans ?_)⟩
        · rintro id b ⟨r, w, hget, hlabel, hw, hb, hstarts⟩
          rcases (key_isPrefix_iff hv hb).mp hstarts with heq | hco
          · exact Option.some.inj (hb.symm.trans ((indexValueKey_congr heq).trans hv))
          · exact absurd hco (hno id r w hget hlabel hw)
        · constructor
          · rintro ⟨r, w, hget, hlabel, hw, heq | hco⟩
            · exact ⟨r, hget, hlabel, by rw [hw]; exact heq⟩
            · exact absurd hco (hno id r w hget hlabel hw)
          · rintro ⟨r, hget, hlabel, heq⟩
            cases hw : r.properties.get? property with
            | none => simp [hw, PropValue.eqvOption] at heq
            | some w => exact ⟨r, w, hget, hlabel, hw, .inl (by rwa [hw] at heq)⟩
      obtain rfl := hmatch.unique hfound'
      exact ⟨scanned, hfound, hscan, hmatch⟩

end GraphStore

namespace GraphRun

open Graph GraphStore

/-- **Indexed lookups over runs.** In every state a run reaches, a lookup by a registered property
returns what a scan returns exactly when no node with the label holds a value that coincides with
the one sought. -/
theorem findsExactly_iff_of_run (txs : List (List GraphOp)) {label property : String}
    (hreg : (run txs).store.Registered label property) (v : PropValue) :
    (run txs).store.FindsExactly label property v ↔
      ∀ id r w, (run txs).store.getNodeIn id = some r → r.label = label →
        r.properties.get? property = some w → ¬Coincides v w id := by
  have hs := nodePart_consistent_run txs
  exact findsExactly_iff (hs.labels.congr rfl rfl)
    (hs.props.congr rfl rfl fun _ _ ↦ Iff.rfl) hreg

/-! ### A string with the key of an integer -/

/-- A node with a code of seven bytes, under an index. -/
def codeTxs : List (List GraphOp) :=
  [[.createNode "Item" (OrdMap.empty.insert "code" (.str "abcdefg"))],
    [.createPropertyIndex "Item" "code"]]

private theorem registered_code : (run codeTxs).store.Registered "Item" "code" :=
  ⟨_, registryKey_eq_ok.mpr ⟨⟨show "Item".utf8.length ≤ 65535 by decide +kernel,
    show "code".utf8.length ≤ 65535 by decide +kernel⟩, rfl⟩, by decide +kernel⟩

/-- The code is found. -/
theorem findsExactly_code : (run codeTxs).store.FindsExactly "Item" "code" (.str "abcdefg") := by
  refine (findsExactly_iff_of_run codeTxs registered_code _).mpr fun id r w hget _ hw hco ↦ ?_
  -- no code is a number
  have hall : (run codeTxs).store.nodes.entries.all (fun e ↦
      PropValue.kindRank (e.2.properties.get? "code") ≠ 2) = true := by
    decide +kernel
  have hnode := of_decide_eq_true (List.all_eq_true.mp hall _ (OrdMap.mem_entries.mpr hget))
  rw [hw] at hnode
  cases w with
  | int i => exact absurd rfl hnode
  | _ => exact hco

/-- The code is also found under the integer whose key is its bytes and a zero. -/
theorem not_findsExactly_int : ¬∀ (txs : List (List GraphOp)) (label property : String)
    (v : PropValue), (run txs).store.Registered label property →
      (run txs).store.FindsExactly label property v := by
  intro h
  obtain ⟨ids, hfind, hscan, -⟩ :=
    h codeTxs "Item" "code" (.int (-2206091584609032448)) registered_code
  have hne : ((run codeTxs).store.findNodesIn "Item" "code"
      (.int (-2206091584609032448))).toOption ≠ ((run codeTxs).store.scanNodesIn "Item" "code"
        (.int (-2206091584609032448))).toOption := by
    decide +kernel
  exact hne (by rw [hfind, hscan])

end GraphRun
