import Bkndb.Relational.Codec

/-!
# Key values

The values that can be keys (`KeyOf`), and what their encodings owe: keys are ordered as the values
and read back, index keys are ordered as pairs of a value and a primary key and give the primary key
back, and the byte bounds of a range of values hold exactly the keys of the values in the range. The
exception is a bound whose key is all `0xFF`: it has no successor, so that no byte bound is set.

## Values that are keys

`KeyOf` is a value with the proof that it can be a key of its kind. The functions of the codec do
not fail on it, so the statements are about bytes and not about results.

## Main results

* `keys_faithful`: order, reading back, and what index keys determine.
* `byteBounds_exact`: which keys lie between the byte bounds of a range of values.
-/

open PropValue

/-- The values that have a key: strings are free of NUL bytes. -/
def PropValue.IsKeyValue : PropValue → Prop
  | int _ | timestamp _ | uuid _ => True
  | str s => 0 ∉ s.utf8
  | _ => False

/-- A value of a kind that can be a key. -/
structure KeyOf (kind : ColumnKind) where
  value : PropValue
  kind_eq : ColumnKind.of value = kind
  isKeyValue : value.IsKeyValue

namespace KeyOf

variable {kind pkKind : ColumnKind}

@[ext] theorem ext {v w : KeyOf kind} (h : v.value = w.value) : v = w := by
  cases v
  cases w
  simpa using h

/-- The bytes of the value. -/
def encode (v : KeyOf kind) : Bytes := (sortableKey v.value).getD []

/-- The bytes of the value, then those of the primary key. -/
def indexed (v : KeyOf kind) (pk : KeyOf pkKind) : Bytes := v.encode ++ pk.encode

theorem sortableKey_value (v : KeyOf kind) : sortableKey v.value = some v.encode := by
  obtain ⟨value, -, hkey⟩ := v
  cases value with
  | str s => simp [encode, sortableKey, show 0 ∉ s.utf8 from hkey]
  | int | timestamp | uuid => rfl
  | null | bool | float | bytes | list | map => exact hkey.elim

theorem kind_eq_kind (v w : KeyOf kind) : ColumnKind.of v.value = .of w.value :=
  v.kind_eq.trans w.kind_eq.symm

theorem encode_injective : Function.Injective (@encode kind) := by
  intro v w h
  exact ext (sortableKey_inj (v.kind_eq_kind w) (h ▸ v.sortableKey_value) w.sortableKey_value)

theorem sortableEncode_value (v : KeyOf kind) : sortableEncode v.value = .ok v.encode :=
  sortableEncode_eq_ok.mpr v.sortableKey_value

theorem compareValues_value (v w : KeyOf kind) :
    compareValues v.value w.value = some (Bytes.cmp v.encode w.encode) :=
  compareValues_eq_cmp_key (v.kind_eq_kind w) v.sortableKey_value w.sortableKey_value

theorem indexKey_value (v : KeyOf kind) (pk : KeyOf pkKind) :
    indexKey v.value pk.value = .ok (v.indexed pk) :=
  indexKey_eq_ok.mpr ⟨_, _, v.sortableKey_value, pk.sortableKey_value, rfl⟩

theorem eq_of_isPrefix {v w : KeyOf kind} {rest : Bytes} (h : v.encode <+: w.encode ++ rest) :
    v = w :=
  encode_injective (key_eq_of_isPrefix (v.kind_eq_kind w) v.sortableKey_value w.sortableKey_value h)

theorem append_lt {v w : KeyOf kind} (h : v.encode < w.encode) (rest : Bytes) :
    v.encode ++ rest < w.encode := by
  refine Bytes.append_lt_of_lt_of_not_isPrefix h (fun hpre ↦ ?_) rest
  exact absurd (congrArg encode (eq_of_isPrefix ((List.append_nil w.encode).symm ▸ hpre)))
    (ne_of_lt h)

/-- **The order of index keys** is that of the value, then that of the primary key. -/
theorem cmp_indexed (v w : KeyOf kind) (pk pk' : KeyOf pkKind) :
    Bytes.cmp (v.indexed pk) (w.indexed pk') =
      (Bytes.cmp v.encode w.encode).then (Bytes.cmp pk.encode pk'.encode) := by
  rcases lt_trichotomy v.encode w.encode with hlt | heq | hgt
  · have h : v.indexed pk < w.indexed pk' :=
      (append_lt hlt pk.encode).trans_le (Bytes.le_of_isPrefix (List.prefix_append ..))
    rw [Bytes.cmp_eq_lt.mpr hlt, Bytes.cmp_eq_lt.mpr h]
    rfl
  · rw [Bytes.cmp_eq_eq.mpr heq, Ordering.eq_then, indexed, indexed, heq]
    simp only [Bytes.cmp, Bytes.append_lt_append_iff]
  · have h : w.indexed pk' < v.indexed pk :=
      (append_lt hgt pk'.encode).trans_le (Bytes.le_of_isPrefix (List.prefix_append ..))
    rw [Bytes.cmp_eq_gt.mpr hgt, Bytes.cmp_eq_gt.mpr h]
    rfl

theorem indexed_inj {v w : KeyOf kind} {pk pk' : KeyOf pkKind}
    (h : v.indexed pk = w.indexed pk') : v = w ∧ pk = pk' := by
  obtain ⟨hv, hpk⟩ := indexKey_inj (v.kind_eq_kind w) (pk.kind_eq_kind pk') (v.indexKey_value pk)
    (h ▸ w.indexKey_value pk')
  exact ⟨ext hv, ext hpk⟩

/-- **Keys are faithful.** They are ordered as the values and read back, and index keys determine the
value and the primary key, are ordered as the pairs of them, and give the primary key back. -/
theorem keys_faithful (kind pkKind : ColumnKind) :
    (∀ v : KeyOf kind, sortableEncode v.value = .ok v.encode ∧
      decodeSortable kind v.encode = .ok v.value) ∧
    (∀ v w : KeyOf kind, compareValues v.value w.value = some (Bytes.cmp v.encode w.encode)) ∧
    (∀ (v : KeyOf kind) (pk : KeyOf pkKind), indexKey v.value pk.value = .ok (v.indexed pk) ∧
      pkFromIndexKey kind pkKind (v.indexed pk) = .ok pk.value) ∧
    (Function.Injective fun p : KeyOf kind × KeyOf pkKind ↦ p.1.indexed p.2) ∧
    ∀ (v w : KeyOf kind) (pk pk' : KeyOf pkKind), ∃ o o',
      compareValues v.value w.value = some o ∧ compareValues pk.value pk'.value = some o' ∧
        Bytes.cmp (v.indexed pk) (w.indexed pk') = o.then o' := by
  refine ⟨fun v ↦ ⟨v.sortableEncode_value, ?_⟩, compareValues_value,
    fun v pk ↦ ⟨v.indexKey_value pk, ?_⟩, fun p q h ↦ ?_, fun v w pk pk' ↦ ?_⟩
  · have h := decodeSortable_of_sortableKey v.sortableKey_value
    rwa [v.kind_eq] at h
  · have h := pkFromIndexKey_append v.sortableKey_value pk.sortableKey_value
    rwa [v.kind_eq, pk.kind_eq] at h
  · obtain ⟨hv, hpk⟩ := indexed_inj h
    exact Prod.ext hv hpk
  · exact ⟨_, _, v.compareValues_value w, pk.compareValues_value pk', v.cmp_indexed w pk pk'⟩

end KeyOf

/-! ## Bounds

One half, that no key in range is lost, holds always, and the planner relies on it. The other half
says that nothing else is fetched; it fails for an excluded bound whose key has no successor. -/

namespace Bytes

/-- The strings greater than every string that starts with a prefix. -/
def pastPrefix (p : Bytes) : Set Bytes := {x | ∀ k, p <+: k → k < x}

/-- **The successor of a prefix** is the least string past it, and there is none past a prefix without
a successor. -/
theorem upperBound_spec (p : Bytes) :
    match upperBound p with
    | some u => IsLeast (pastPrefix p) u
    | none => pastPrefix p = ∅ := by
  -- a string past the prefix that stays below the successor would start with the prefix
  have hself : ∀ x ∈ pastPrefix p, ¬ BelowUpper p x := fun x hx hbelow ↦
    lt_irrefl x (hx x (isPrefix_iff.mpr ⟨(hx p List.prefix_rfl).le, hbelow⟩))
  cases h : upperBound p with
  | some u =>
    refine ⟨fun k hk ↦ (isPrefix_iff.mp hk).2 u h, fun x hx ↦ not_lt.mp fun hlt ↦ ?_⟩
    refine hself x hx fun u' hu' ↦ ?_
    rw [h, Option.some.injEq] at hu'
    exact hu' ▸ hlt
  | none =>
    refine Set.eq_empty_of_forall_notMem fun x hx ↦ hself x hx fun u hu ↦ ?_
    rw [h] at hu
    cases hu

theorem upperBound_eq_none {p : Bytes} : upperBound p = none ↔ ∀ b ∈ p, b = 0xFF := by
  induction p with
  | nil => simp
  | cons b p ih =>
    rw [upperBound_cons, List.forall_mem_cons, ← ih]
    cases upperBound p with
    | some u => simp
    | none => by_cases hb : b = 0xFF <;> simp [hb]

end Bytes

namespace KeyOf

variable {kind pkKind : ColumnKind}

/-- The value of a bound on keys. -/
def bound (b : Bound (KeyOf kind)) : Bound PropValue := b.map value

/-- Some endpoint has a key of `0xFF` bytes only. -/
def AllMax (b : Bound (KeyOf kind)) : Prop :=
  match b with
  | .unbounded => False
  | .included u | .excluded u => ∀ x ∈ u.encode, x = 0xFF

/-- A value within two bounds. -/
def Within (lo hi : Bound (KeyOf kind)) (v : KeyOf kind) : Prop :=
  LowerHolds (bound lo) v.value ∧ UpperHolds (bound hi) v.value

/-- A key of a value: its own, or an index key of it. -/
def HasKey (v : KeyOf kind) (k : Bytes) : Prop :=
  sortableEncode v.value = .ok k ∨
    ∃ (pkKind : ColumnKind) (pk : KeyOf pkKind), indexKey v.value pk.value = .ok k

theorem HasKey.exists_append {v : KeyOf kind} {k : Bytes} (h : v.HasKey k) :
    ∃ rest, k = v.encode ++ rest := by
  rcases h with h | ⟨pkKind, pk, h⟩
  · rw [sortableEncode_value] at h
    exact ⟨[], by rw [List.append_nil, Except.ok.inj h]⟩
  · rw [indexKey_value] at h
    exact ⟨pk.encode, (Except.ok.inj h).symm⟩

theorem boundKind_bound (b : Bound (KeyOf kind)) (v : KeyOf kind) :
    BoundKind (.of v.value) (bound b) := by
  cases b with
  | unbounded => trivial
  | included u => exact ⟨u.kind_eq_kind v, _, u.sortableKey_value⟩
  | excluded u => exact ⟨u.kind_eq_kind v, _, u.sortableKey_value⟩

/-- The byte bound of a value-level lower bound. -/
def lower : Bound (KeyOf kind) → Bound Bytes
  | .unbounded => .unbounded
  | .included u => .included u.encode
  | .excluded u => match Bytes.upperBound u.encode with
    | some b => .included b
    | none => .unbounded

/-- The byte bound of a value-level upper bound. -/
def upper : Bound (KeyOf kind) → Bound Bytes
  | .unbounded => .unbounded
  | .excluded u => .excluded u.encode
  | .included u => match Bytes.upperBound u.encode with
    | some b => .excluded b
    | none => .unbounded

theorem lowerBoundBytes_bound (b : Bound (KeyOf kind)) :
    lowerBoundBytes (bound b) = .ok (lower b) := by
  cases b with
  | unbounded => rfl
  | included u => simp only [bound, Bound.map, lowerBoundBytes, sortableEncode_value]; rfl
  | excluded u => simp only [bound, Bound.map, lowerBoundBytes, sortableEncode_value]; rfl

theorem upperBoundBytes_bound (b : Bound (KeyOf kind)) :
    upperBoundBytes (bound b) = .ok (upper b) := by
  cases b with
  | unbounded => rfl
  | included u => simp only [bound, Bound.map, upperBoundBytes, sortableEncode_value]; rfl
  | excluded u => simp only [bound, Bound.map, upperBoundBytes, sortableEncode_value]; rfl

/-- **A byte lower bound admits no key of a value out of range.** -/
theorem lowerHolds_of_above {b : Bound (KeyOf kind)} (hmax : ¬ AllMax b) {v : KeyOf kind}
    {rest : Bytes} (h : (lower b).Above (v.encode ++ rest)) : LowerHolds (bound b) v.value := by
  cases b with
  | unbounded => trivial
  | included u =>
    change compareValues v.value u.value = _ ∨ compareValues v.value u.value = _
    rw [compareValues_value, Option.some_inj, Option.some_inj, Bytes.cmp_eq_gt, Bytes.cmp_eq_eq]
    rcases lt_trichotomy v.encode u.encode with hlt | heq | hgt
    · exact absurd (append_lt hlt rest) (not_lt.mpr h)
    · exact .inr heq
    · exact .inl hgt
  | excluded u =>
    change compareValues v.value u.value = _
    rw [compareValues_value, Option.some_inj, Bytes.cmp_eq_gt]
    obtain ⟨c, hc⟩ := Option.ne_none_iff_exists'.mp (Bytes.upperBound_eq_none.not.mpr hmax)
    have habove : c ≤ v.encode ++ rest := by simpa only [lower, hc, Bound.above_included] using h
    by_contra hle
    rcases lt_or_eq_of_le (not_lt.mp hle) with hlt | heq
    · exact absurd ((append_lt hlt rest).trans (Bytes.lt_upperBound hc)) (not_lt.mpr habove)
    · have hpre := (Bytes.isPrefix_iff.mp (List.prefix_append u.encode rest)).2 c hc
      rw [heq] at habove
      exact absurd hpre (not_lt.mpr habove)

/-- **A byte upper bound admits no key of a value out of range.** -/
theorem upperHolds_of_below {b : Bound (KeyOf kind)} (hmax : ¬ AllMax b) {v : KeyOf kind}
    {rest : Bytes} (h : (upper b).Below (v.encode ++ rest)) : UpperHolds (bound b) v.value := by
  have hpre : v.encode ≤ v.encode ++ rest := Bytes.le_of_isPrefix (List.prefix_append ..)
  cases b with
  | unbounded => trivial
  | excluded u =>
    change compareValues v.value u.value = _
    rw [compareValues_value, Option.some_inj, Bytes.cmp_eq_lt]
    exact hpre.trans_lt h
  | included u =>
    change compareValues v.value u.value = _ ∨ compareValues v.value u.value = _
    rw [compareValues_value, Option.some_inj, Option.some_inj, Bytes.cmp_eq_lt, Bytes.cmp_eq_eq]
    obtain ⟨c, hc⟩ := Option.ne_none_iff_exists'.mp (Bytes.upperBound_eq_none.not.mpr hmax)
    have hbelow : v.encode ++ rest < c := by simpa only [upper, hc, Bound.below_excluded] using h
    rcases lt_or_ge v.encode u.encode with hlt | hge
    · exact .inl hlt
    · refine .inr (congrArg encode (@eq_of_isPrefix _ u v rest ?_).symm)
      refine Bytes.isPrefix_iff.mpr ⟨hge.trans hpre, fun d hd ↦ ?_⟩
      rw [hc, Option.some_inj] at hd
      exact hd ▸ hbelow

end KeyOf

/-- Text that can be a key. -/
structure KeyText where
  text : String
  free : 0 ∉ text.utf8

/-- The text as a key. -/
def KeyText.key (s : KeyText) : KeyOf .str := ⟨.str s.text, rfl, s.free⟩

theorem KeyText.encode_key (s : KeyText) : s.key.encode = s.text.utf8 ++ [0] :=
  Option.some.inj (s.key.sortableKey_value.symm.trans (by
    simp [key, sortableKey, s.free]))

/-- **The prefix bounds** hold the index keys of the strings with the prefix. -/
theorem KeyText.within_prefixBounds {pkKind : ColumnKind} (p s : KeyText) (pk : KeyOf pkKind) :
    (sortableStrPrefixBounds p.text).1.Above (s.key.indexed pk) ∧
        (sortableStrPrefixBounds p.text).2.Below (s.key.indexed pk) ↔
      p.text.utf8 <+: s.text.utf8 := by
  have hkey : s.key.indexed pk = s.text.utf8 ++ [0] ++ pk.encode := by
    rw [KeyOf.indexed, s.encode_key]
  rw [hkey]
  refine ⟨?_, fun h ↦ sortableStrPrefixBounds_spec h pk.encode⟩
  rw [sortableStrPrefixBounds]
  split
  case isTrue hnil =>
    intro _
    rw [hnil]
    exact List.nil_prefix
  case isFalse =>
    rintro ⟨hle, hbelow⟩
    have hpre : p.text.utf8 <+: s.text.utf8 ++ [0] ++ pk.encode := by
      refine Bytes.isPrefix_iff.mpr ⟨hle, fun u hu ↦ ?_⟩
      rw [hu] at hbelow
      exact hbelow
    rw [List.append_assoc] at hpre
    exact (Bytes.isPrefix_terminated p.free).mp hpre

/-- **Byte bounds lose no key.** A value in range has its keys in the byte range; the converse holds
unless a bound's key is all `0xFF`. The prefix bounds are exact, and the successor they are made from
is the least string past a prefix. -/
theorem byteBounds_exact :
    (∀ (kind : ColumnKind) (lo hi : Bound (KeyOf kind)), ∃ L U,
      lowerBoundBytes (KeyOf.bound lo) = .ok L ∧ upperBoundBytes (KeyOf.bound hi) = .ok U ∧
        ∀ (v : KeyOf kind) (k : Bytes), v.HasKey k →
          (KeyOf.Within lo hi v → L.Above k ∧ U.Below k) ∧
          (¬ KeyOf.AllMax lo → ¬ KeyOf.AllMax hi → L.Above k ∧ U.Below k →
            KeyOf.Within lo hi v)) ∧
    (∀ (p s : KeyText) (pkKind : ColumnKind) (pk : KeyOf pkKind), ∃ k,
      indexKey (.str s.text) pk.value = .ok k ∧
        ((sortableStrPrefixBounds p.text).1.Above k ∧ (sortableStrPrefixBounds p.text).2.Below k ↔
          p.text.utf8 <+: s.text.utf8)) ∧
    ∀ p : Bytes, match Bytes.upperBound p with
      | some u => IsLeast (Bytes.pastPrefix p) u
      | none => Bytes.pastPrefix p = ∅ := by
  refine ⟨fun kind lo hi ↦ ⟨KeyOf.lower lo, KeyOf.upper hi, KeyOf.lowerBoundBytes_bound lo,
    KeyOf.upperBoundBytes_bound hi, fun v k hk ↦ ?_⟩,
    fun p s _ pk ↦ ⟨_, s.key.indexKey_value pk, p.within_prefixBounds s pk⟩,
    Bytes.upperBound_spec⟩
  obtain ⟨rest, rfl⟩ := hk.exists_append
  refine ⟨fun ⟨hlo, hhi⟩ ↦ ⟨?_, ?_⟩, fun hl hu ⟨habove, hbelow⟩ ↦
    ⟨KeyOf.lowerHolds_of_above hl habove, KeyOf.upperHolds_of_below hu hbelow⟩⟩
  · exact lowerBoundBytes_above (KeyOf.boundKind_bound lo v) (KeyOf.lowerBoundBytes_bound lo)
      v.sortableKey_value hlo rest
  · exact upperBoundBytes_below (KeyOf.boundKind_bound hi v) (KeyOf.upperBoundBytes_bound hi)
      v.sortableKey_value hhi rest
