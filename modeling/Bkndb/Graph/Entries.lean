import Bkndb.Graph.Ops

/-!
# Index entries

What the keys of the label index, the property index and the registry determine, and what the index
scans return. The names in a key are length prefixed and the identifier at its end has a fixed
width, so a key gives back its label, its property, and its node.

## Entries and prefixes

A lookup scans the entries that start with a prefix, so two facts are needed of every kind of key:
it gives back its parts, and it starts with the prefix of other parts only if they are the same.
Both follow from the length in front of each name, for names that fit two bytes. `Indexable` names
the values that have an entry at all.
-/

namespace Graph

variable {label label' property property' : String} {id id' : NodeId} {k k' : Bytes}

/-! ## Names -/

/-- A name that fits a two-byte length. -/
def ShortName (s : String) : Prop := s.utf8.length ≤ 65535

theorem ShortName.lt {s : String} (h : ShortName s) : s.utf8.length < 256 ^ 2 := by
  rw [ShortName] at h
  omega

theorem pushLenPrefixed_eq_ok {out : Bytes} {s : String} :
    pushLenPrefixed out s = .ok k ↔ ShortName s ∧ k = out ++ Bytes.lenPrefixed s.utf8 := by
  rw [pushLenPrefixed, ShortName]
  split <;> simp_all [eq_comm]

theorem labelPrefix_eq_ok :
    labelPrefix label = .ok k ↔ ShortName label ∧ k = Bytes.lenPrefixed label.utf8 := by
  rw [labelPrefix, pushLenPrefixed_eq_ok, List.nil_append]

theorem labelKey_eq_ok : labelKey label id = .ok k ↔
    ShortName label ∧ k = Bytes.lenPrefixed label.utf8 ++ nodeKey id := by
  rw [labelKey, Except.bind_eq_ok]
  simp only [labelPrefix_eq_ok, pure, Except.pure, Except.ok.injEq]
  constructor
  · rintro ⟨p, ⟨hs, rfl⟩, rfl⟩
    exact ⟨hs, rfl⟩
  · rintro ⟨hs, rfl⟩
    exact ⟨_, ⟨hs, rfl⟩, rfl⟩

theorem propPrefix_eq_ok : propPrefix label property = .ok k ↔
    (ShortName label ∧ ShortName property) ∧
      k = Bytes.lenPrefixed label.utf8 ++ Bytes.lenPrefixed property.utf8 := by
  rw [propPrefix, Except.bind_eq_ok]
  simp only [labelPrefix_eq_ok, pushLenPrefixed_eq_ok]
  constructor
  · rintro ⟨p, ⟨hs, rfl⟩, hp, rfl⟩
    exact ⟨⟨hs, hp⟩, rfl⟩
  · rintro ⟨⟨hs, hp⟩, rfl⟩
    exact ⟨_, ⟨hs, rfl⟩, hp, rfl⟩

theorem registryKey_eq_ok : registryKey label property = .ok k ↔
    (ShortName label ∧ ShortName property) ∧
      k = propIndexPrefix ++ (Bytes.lenPrefixed label.utf8 ++ Bytes.lenPrefixed property.utf8) := by
  rw [registryKey, Except.bind_eq_ok]
  simp only [propPrefix_eq_ok, pure, Except.pure, Except.ok.injEq]
  constructor
  · rintro ⟨p, ⟨hs, rfl⟩, rfl⟩
    exact ⟨hs, rfl⟩
  · rintro ⟨hs, rfl⟩
    exact ⟨_, ⟨hs, rfl⟩, rfl⟩

theorem propEntry_eq_some {value : Option PropValue} :
    propEntry label property value id = .ok (some k) ↔
      ∃ v encoded, value = some v ∧ indexValueKey v = some encoded ∧
        (ShortName label ∧ ShortName property) ∧
        k = Bytes.lenPrefixed label.utf8 ++ Bytes.lenPrefixed property.utf8 ++ encoded ++
          nodeKey id := by
  rw [propEntry]
  split
  · rename_i hnone
    rw [Option.bind_eq_none_iff] at hnone
    simp only [Except.ok.injEq, reduceCtorEq, false_iff, not_exists]
    rintro v encoded ⟨rfl, henc, -⟩
    simp [hnone v rfl] at henc
  · rename_i encoded henc
    obtain ⟨v, rfl, hv⟩ := Option.bind_eq_some_iff.mp henc
    rw [Except.bind_eq_ok]
    simp only [propPrefix_eq_ok, pure, Except.pure, Except.ok.injEq, Option.some.injEq]
    constructor
    · rintro ⟨p, ⟨hs, rfl⟩, rfl⟩
      exact ⟨v, encoded, rfl, hv, hs, rfl⟩
    · rintro ⟨v', encoded', rfl, hv', hs, rfl⟩
      obtain rfl : encoded = encoded' := by simpa [hv] using hv'
      exact ⟨_, ⟨hs, rfl⟩, rfl⟩

theorem propEntry_isOk (hl : ShortName label) (hp : ShortName property) (value : Option PropValue)
    (id : NodeId) : ∃ entry, propEntry label property value id = .ok entry := by
  rw [propEntry]
  split
  · exact ⟨none, rfl⟩
  · rename_i encoded henc
    rw [propPrefix_eq_ok.mpr ⟨⟨hl, hp⟩, rfl⟩]
    exact ⟨_, rfl⟩

/-- Integers and strings without a NUL byte, the values that are indexed. -/
def Indexable : PropValue → Prop
  | .int _ => True
  | .str s => 0 ∉ s.utf8
  | _ => False

theorem indexValueKey_isSome {v : PropValue} : (∃ k, indexValueKey v = some k) ↔ Indexable v := by
  cases v <;> simp [indexValueKey, PropValue.sortableKey, Indexable]

theorem propEntry_congr {a b : Option PropValue} (h : PropValue.eqvOption a b = true) :
    propEntry label property a id = propEntry label property b id := by
  suffices hkey : a.bind indexValueKey = b.bind indexValueKey by rw [propEntry, propEntry, hkey]
  cases a with
  | none => cases b with
    | none => rfl
    | some b => simp [PropValue.eqvOption] at h
  | some a => cases b with
    | none => simp [PropValue.eqvOption] at h
    | some b =>
      -- only equality of integers and of strings matters, and there it is the identity
      cases a <;> cases b <;> simp_all [PropValue.eqvOption, PropValue.eqv, indexValueKey]

/-! ## What keys determine -/

theorem labelKey_inj (h : labelKey label id = .ok k) (h' : labelKey label' id' = .ok k) :
    label = label' ∧ id = id' := by
  obtain ⟨hs, rfl⟩ := labelKey_eq_ok.mp h
  obtain ⟨hs', heq⟩ := labelKey_eq_ok.mp h'
  obtain ⟨hl, hid⟩ := Bytes.lenPrefixed_append_inj hs.lt hs'.lt heq
  exact ⟨String.utf8_injective hl, nodeKey_injective hid⟩

/-- A registry key gives back its label and property. -/
theorem registryKey_inj (h : registryKey label property = .ok k)
    (h' : registryKey label' property' = .ok k) : label = label' ∧ property = property' := by
  obtain ⟨⟨hl, hp⟩, rfl⟩ := registryKey_eq_ok.mp h
  obtain ⟨⟨hl', hp'⟩, heq⟩ := registryKey_eq_ok.mp h'
  obtain ⟨hlabel, hprop⟩ := Bytes.lenPrefixed_append_inj hl.lt hl'.lt (List.append_cancel_left heq)
  rw [← List.append_nil (Bytes.lenPrefixed property.utf8),
    ← List.append_nil (Bytes.lenPrefixed property'.utf8)] at hprop
  exact ⟨String.utf8_injective hlabel,
    String.utf8_injective (Bytes.lenPrefixed_append_inj hp.lt hp'.lt hprop).1⟩

/-- A property-index key gives back its label, property and node. -/
theorem propEntry_inj {v v' : Option PropValue} (h : propEntry label property v id = .ok (some k))
    (h' : propEntry label' property' v' id' = .ok (some k)) :
    label = label' ∧ property = property' ∧ id = id' := by
  obtain ⟨_, enc, -, -, ⟨hl, hp⟩, rfl⟩ := propEntry_eq_some.mp h
  obtain ⟨_, enc', -, -, ⟨hl', hp'⟩, heq⟩ := propEntry_eq_some.mp h'
  simp only [List.append_assoc] at heq
  obtain ⟨hlabel, hrest⟩ := Bytes.lenPrefixed_append_inj hl.lt hl'.lt heq
  obtain ⟨hprop, htail⟩ := Bytes.lenPrefixed_append_inj hp.lt hp'.lt hrest
  have hid := (List.append_inj' htail (by simp)).2
  exact ⟨String.utf8_injective hlabel, String.utf8_injective hprop, nodeKey_injective hid⟩

/-- The entries of a pair are the entries starting with its prefix. -/
theorem propPrefix_isPrefix {v : Option PropValue} {p : Bytes}
    (hp : propPrefix label property = .ok p) (h : propEntry label' property' v id = .ok (some k)) :
    p <+: k ↔ label = label' ∧ property = property' := by
  obtain ⟨⟨hl, hpr⟩, rfl⟩ := propPrefix_eq_ok.mp hp
  obtain ⟨_, enc, -, -, ⟨hl', hpr'⟩, rfl⟩ := propEntry_eq_some.mp h
  simp only [List.append_assoc]
  constructor
  · rintro ⟨rest, heq⟩
    rw [List.append_assoc] at heq
    obtain ⟨hlabel, hrest⟩ := Bytes.lenPrefixed_append_inj hl.lt hl'.lt heq
    exact ⟨String.utf8_injective hlabel,
      String.utf8_injective (Bytes.lenPrefixed_append_inj hpr.lt hpr'.lt hrest).1⟩
  · rintro ⟨rfl, rfl⟩
    exact (List.prefix_append_right_inj _).mpr (List.prefix_append _ _)

/-! ## Scans -/

theorem mem_scanPrefix {V : Type} {table : OrdMap Bytes V} {p : Bytes} :
    k ∈ scanPrefix table p ↔ table.contains k = true ∧ p <+: k := by
  have hbelow : (Bound.stop (Bytes.upperBound p)).Below k ↔ Bytes.BelowUpper p k := by
    rw [Bytes.BelowUpper]
    cases Bytes.upperBound p <;> simp [Bound.stop]
  rw [scanPrefix, List.mem_map, OrdMap.contains_iff, Bytes.isPrefix_iff]
  simp only [Prod.exists, exists_and_right, exists_eq_right, OrdMap.mem_range, hbelow,
    Bound.above_included]

theorem scanPrefix_sorted {V : Type} (table : OrdMap Bytes V) (p : Bytes) :
    (scanPrefix table p).Pairwise (· < ·) := by
  rw [scanPrefix, List.pairwise_map]
  exact OrdMap.range_sorted ..

theorem contains_clearPrefix {V : Type} {table : OrdMap Bytes V} {p : Bytes} :
    (clearPrefix table p).contains k = true ↔ table.contains k = true ∧ ¬p <+: k := by
  rw [OrdMap.contains, clearPrefix, OrdMap.get?_eraseAll]
  split
  · rename_i hmem
    have := (mem_scanPrefix.mp hmem).2
    simp [this]
  · rename_i hmem
    rw [mem_scanPrefix] at hmem
    exact ⟨fun h ↦ ⟨h, fun hp ↦ hmem ⟨h, hp⟩⟩, And.left⟩

theorem trailingNodeId_append (a : Bytes) (id : NodeId) :
    trailingNodeId (a ++ nodeKey id) = .ok id := by
  have hlen : (a ++ nodeKey id).length - 8 = a.length := by simp
  rw [trailingNodeId, hlen, List.drop_left' rfl, decodeNodeId_nodeKey, Except.guardOr,
    if_pos (by simp)]
  rfl

theorem readName_lenPrefixed {s : String} (hs : ShortName s) (rest : Bytes) :
    readName (Bytes.lenPrefixed s.utf8 ++ rest) = .ok (s, rest) := by
  have hdrop : (Bytes.lenPrefixed s.utf8 ++ rest).drop 2 = s.utf8 ++ rest := by
    rw [Bytes.lenPrefixed, List.append_assoc, List.drop_left' (by simp)]
  have htake : (Bytes.lenPrefixed s.utf8 ++ rest).take 2 = Bytes.be 2 s.utf8.length := by
    rw [Bytes.lenPrefixed, List.append_assoc, List.take_left' (by simp)]
  have hlen : Bytes.ofBe ((Bytes.lenPrefixed s.utf8 ++ rest).take 2) = s.utf8.length := by
    rw [htake, Bytes.ofBe_be_of_lt hs.lt]
  have hlength : (Bytes.lenPrefixed s.utf8 ++ rest).length = 2 + s.utf8.length + rest.length := by
    simp [Bytes.lenPrefixed]
    omega
  have hrest : (Bytes.lenPrefixed s.utf8 ++ rest).drop (2 + s.utf8.length) = rest := by
    rw [← List.drop_drop, hdrop, List.drop_left' rfl]
  simp only [readName, hlen, hdrop, hlength, hrest, List.take_left' rfl, fromUtf8_utf8,
    Except.guardOr, Except.ofOption]
  rw [if_pos (by omega), if_pos (by omega)]
  rfl

end Graph
