import Bkndb.Relational.Schema

/-!
# Sortable keys and index keys

The byte encoding of key values (`relational/codec.rs`): primary keys are stored under
`sortableEncode pk`, and an index entry is the indexed value's encoding followed by the primary
key's. The encodings of one kind are prefix free and ordered as the values, which is what makes the
byte bounds below cover every index key of a range of values.

## Main results

* `decodeSortable_of_sortableKey` and `compareValues_eq_cmp_key`: within a kind, keys read back,
  and are ordered as the values.
* `key_eq_of_isPrefix`: keys of one kind are prefix free, so an index key can be cut after its
  first part.
* `lowerBoundBytes_above` and `upperBoundBytes_below`: the byte bounds of a range lose no key.

Across kinds all of this fails: an integer and a time with the same number have the same key.
-/

open PropValue

/-! ## Encoding and decoding -/

/-- Sortable encoding of a key value. -/
def sortableEncode (v : PropValue) : Except BknError Bytes :=
  .ofOption (.encoding <| match v with
    | str _ => "strings used as a primary key or indexed value cannot contain a NUL byte"
    | _ => "only Int/Str/Timestamp/Uuid values can be used as a primary key or indexed column")
    (sortableKey v)

/-- The integer behind a sign-flipped big-endian key. -/
def decodeInt (b : Bytes) : Int64 := (UInt64.ofNat (Bytes.ofBe b) ^^^ 0x8000000000000000).toInt64

/-- The value of a kind behind a key. -/
def decodeSortable (kind : ColumnKind) (b : Bytes) : Except BknError PropValue :=
  match kind with
  | .int =>
    if b.length = 8 then .ok (int (decodeInt b)) else .error (.encoding "corrupt sortable int key")
  | .timestamp =>
    if b.length = 8 then .ok (timestamp (decodeInt b))
    else .error (.encoding "corrupt sortable int key")
  | .uuid =>
    if h : b.length = 16 then .ok (uuid ⟨b.toArray, by simpa using h⟩)
    else .error (.encoding "corrupt sortable uuid key")
  | .str =>
    match b.getLast? with
    | none => .error (.encoding "empty sortable str key")
    | some last =>
      if last ≠ 0 then .error (.encoding "sortable str key missing terminator")
      else str <$> .ofOption (.encoding "invalid utf-8 sequence") (fromUtf8 b.dropLast)
  | _ => .error (.encoding "only Int/Str/Timestamp/Uuid columns support sortable decoding")

/-- The indexed value, then the primary key, which tells rows sharing a value apart. -/
def indexKey (v pk : PropValue) : Except BknError Bytes := do
  let k ← sortableEncode v
  return k ++ (← sortableEncode pk)

/-- The length of the indexed value's encoding at the start of an index key. -/
def indexedValueLen (kind : ColumnKind) (key : Bytes) : Except BknError ℕ :=
  match kind with
  | .int | .timestamp => .ok 8
  | .uuid => .ok 16
  | .str =>
    match key.findIdx? (· == 0) with
    | some pos => .ok (pos + 1)
    | none => .error (.encoding "index key missing str terminator")
  | _ => .error (.encoding "only Int/Str/Timestamp/Uuid columns support indexing")

/-- The primary key at the end of an index key. -/
def pkFromIndexKey (indexedKind pkKind : ColumnKind) (key : Bytes) : Except BknError PropValue := do
  let split ← indexedValueLen indexedKind key
  -- `key[split..]` panics past the end
  .guardOr (split ≤ key.length) (.panic "range start index out of range for slice")
  decodeSortable pkKind (key.drop split)

/-! ## Byte bounds -/

/-- A value-level lower bound over index keys: an excluded value skips all of its extensions. -/
def lowerBoundBytes : Bound PropValue → Except BknError (Bound Bytes)
  | .unbounded => .ok .unbounded
  | .included v => .included <$> sortableEncode v
  | .excluded v => do
    return match Bytes.upperBound (← sortableEncode v) with
      | some b => .included b
      | none => .unbounded

/-- A value-level upper bound over index keys: an included value admits all of its extensions. -/
def upperBoundBytes : Bound PropValue → Except BknError (Bound Bytes)
  | .unbounded => .ok .unbounded
  | .excluded v => .excluded <$> sortableEncode v
  | .included v => do
    return match Bytes.upperBound (← sortableEncode v) with
      | some b => .excluded b
      | none => .unbounded

/-- The bounds of the index keys of strings with a given prefix. -/
def sortableStrPrefixBounds (p : String) : Bound Bytes × Bound Bytes :=
  if p.utf8 = [] then (.unbounded, .unbounded)
  else (.included p.utf8,
    match Bytes.upperBound p.utf8 with
    | some b => .excluded b
    | none => .unbounded)

/-! ## Round trips -/

@[simp] theorem sortableEncode_eq_ok {v : PropValue} {b : Bytes} :
    sortableEncode v = .ok b ↔ sortableKey v = some b := by
  unfold sortableEncode
  exact Except.ofOption_eq_ok

theorem decodeInt_be (i : Int64) : decodeInt (Bytes.be 8 (flipSign i).toNat) = i := by
  have hlt : (flipSign i).toNat < 256 ^ 8 := (flipSign i).toNat_lt
  rw [decodeInt, Bytes.ofBe_be_of_lt hlt, UInt64.ofNat_toNat, flipSign]
  rw [UInt64.xor_assoc, UInt64.xor_self, UInt64.xor_zero, Int64.toInt64_toUInt64]

/-- **Keys decode to the value they encode.** -/
theorem decodeSortable_of_sortableKey {v : PropValue} {b : Bytes} (h : sortableKey v = some b) :
    decodeSortable (.of v) b = .ok v := by
  cases v with
  | int i =>
    obtain rfl : Bytes.be 8 (flipSign i).toNat = b := by simpa [sortableKey] using h
    simp [ColumnKind.of, decodeSortable, decodeInt_be]
  | timestamp i =>
    obtain rfl : Bytes.be 8 (flipSign i).toNat = b := by simpa [sortableKey] using h
    simp [ColumnKind.of, decodeSortable, decodeInt_be]
  | str s =>
    obtain ⟨-, rfl⟩ : 0 ∉ s.utf8 ∧ s.utf8 ++ [0] = b := by simpa [sortableKey] using h
    simp only [ColumnKind.of, decodeSortable, List.getLast?_append, List.getLast?_singleton,
      Option.some_or, ne_eq, not_true_eq_false, if_false, List.dropLast_append_of_ne_nil
      (List.cons_ne_nil _ _), List.dropLast_singleton, List.append_nil, fromUtf8_utf8]
    rfl
  | uuid u =>
    obtain rfl : u.toList = b := by simpa [sortableKey] using h
    simp only [ColumnKind.of, decodeSortable, Vector.length_toList, dif_pos, Except.ok.injEq,
      uuid.injEq]
    apply Vector.toArray_inj.mp
    exact Array.toArray_toList
  | null => simp [sortableKey] at h
  | bool => simp [sortableKey] at h
  | float => simp [sortableKey] at h
  | bytes => simp [sortableKey] at h
  | list => simp [sortableKey] at h
  | map => simp [sortableKey] at h

theorem sortableKey_of_decodeSortable {kind : ColumnKind} {b b' : Bytes} {v : PropValue}
    (h : decodeSortable kind b = .ok v) (hv : sortableKey v = some b') : b' = b := by
  have hint : b.length = 8 → Bytes.be 8 (flipSign (decodeInt b)).toNat = b := by
    intro hlen
    have hlt : Bytes.ofBe b < 2 ^ 64 := by
      have := Bytes.ofBe_lt b
      rw [hlen] at this
      exact this
    have hflip : (flipSign (decodeInt b)).toNat = Bytes.ofBe b := by
      rw [flipSign, decodeInt, UInt64.toUInt64_toInt64, UInt64.xor_assoc, UInt64.xor_self,
        UInt64.xor_zero, UInt64.toNat_ofNat']
      exact Nat.mod_eq_of_lt hlt
    rw [hflip, ← hlen, Bytes.be_ofBe]
  cases kind with
  | int =>
    rw [decodeSortable] at h
    split at h
    · rename_i hlen
      obtain rfl := Except.ok.inj h
      rw [sortableKey, Option.some_inj] at hv
      rw [← hv, hint hlen]
    · simp at h
  | timestamp =>
    rw [decodeSortable] at h
    split at h
    · rename_i hlen
      obtain rfl := Except.ok.inj h
      rw [sortableKey, Option.some_inj] at hv
      rw [← hv, hint hlen]
    · simp at h
  | uuid =>
    rw [decodeSortable] at h
    split at h
    · obtain rfl := Except.ok.inj h
      rw [sortableKey, Option.some_inj] at hv
      rw [← hv]
      simp [Vector.toList]
    · simp at h
  | str =>
    rw [decodeSortable] at h
    split at h
    · simp at h
    · rename_i last hlast
      split_ifs at h with h0
      · obtain ⟨s, hs, rfl⟩ := Except.map_eq_ok.mp h
        rw [Except.ofOption_eq_ok] at hs
        obtain ⟨-, rfl⟩ : 0 ∉ s.utf8 ∧ s.utf8 ++ [0] = b' := by simpa [sortableKey] using hv
        rw [utf8_of_fromUtf8 hs, ← not_not.mp h0]
        exact List.dropLast_append_getLast? last hlast
  | null => simp [decodeSortable] at h
  | bool => simp [decodeSortable] at h
  | float => simp [decodeSortable] at h
  | bytes => simp [decodeSortable] at h
  | list => simp [decodeSortable] at h
  | map => simp [decodeSortable] at h

theorem sortableKey_inj {v w : PropValue} {b : Bytes} (hkind : ColumnKind.of v = .of w)
    (hv : sortableKey v = some b) (hw : sortableKey w = some b) : v = w := by
  have h := decodeSortable_of_sortableKey hv
  rw [hkind, decodeSortable_of_sortableKey hw] at h
  exact (Except.ok.inj h).symm

/-! ## Order -/

theorem sortableKey_cases {v : PropValue} {b : Bytes} (h : sortableKey v = some b) :
    (∃ i, (v = int i ∨ v = timestamp i) ∧ b = Bytes.be 8 (flipSign i).toNat) ∨
      (∃ u, v = uuid u ∧ b = u.toList) ∨ ∃ s, v = str s ∧ 0 ∉ s.utf8 ∧ b = s.utf8 ++ [0] := by
  cases v with
  | int i => exact Or.inl ⟨i, Or.inl rfl, by simpa [sortableKey, eq_comm] using h⟩
  | timestamp i => exact Or.inl ⟨i, Or.inr rfl, by simpa [sortableKey, eq_comm] using h⟩
  | uuid u => exact Or.inr (Or.inl ⟨u, rfl, by simpa [sortableKey, eq_comm] using h⟩)
  | str s => exact Or.inr (Or.inr ⟨s, rfl, by simpa [sortableKey, eq_comm] using h⟩)
  | null => simp [sortableKey] at h
  | bool => simp [sortableKey] at h
  | float => simp [sortableKey] at h
  | bytes => simp [sortableKey] at h
  | list => simp [sortableKey] at h
  | map => simp [sortableKey] at h

private theorem cmp_congr {a b c d : Bytes} (hlt : a < b ↔ c < d) (hgt : b < a ↔ d < c) :
    Bytes.cmp a b = Bytes.cmp c d := by
  rw [Bytes.cmp, Bytes.cmp, if_congr hlt rfl (if_congr hgt rfl rfl)]

private theorem cmp_int (i j : Int64) : cmp i.toInt j.toInt =
    Bytes.cmp (Bytes.be 8 (flipSign i).toNat) (Bytes.be 8 (flipSign j).toNat) := by
  rcases lt_trichotomy i.toInt j.toInt with h | h | h
  · rw [(cmp_eq_lt_iff _ _).mpr h, Bytes.cmp_eq_lt.mpr ((be_flipSign_lt_iff i j).mpr h)]
  · rw [Int64.toInt.inj h, cmp_self_eq_eq, Bytes.cmp_self]
  · rw [(cmp_eq_gt_iff _ _).mpr h, Bytes.cmp_eq_gt.mpr ((be_flipSign_lt_iff j i).mpr h)]

/-- **Keys are ordered as the values of their kind.** -/
theorem compareValues_eq_cmp_key {v w : PropValue} {a b : Bytes}
    (hkind : ColumnKind.of v = .of w) (hv : sortableKey v = some a) (hw : sortableKey w = some b) :
    compareValues v w = some (Bytes.cmp a b) := by
  rcases sortableKey_cases hv with ⟨i, hi, rfl⟩ | ⟨u, rfl, rfl⟩ | ⟨s, rfl, hs, rfl⟩ <;>
    rcases sortableKey_cases hw with ⟨j, hj, rfl⟩ | ⟨u', rfl, rfl⟩ | ⟨t, rfl, ht, rfl⟩
  · rcases hi with rfl | rfl <;> rcases hj with rfl | rfl
    · rw [compareValues, cmp_int]
    · simp [ColumnKind.of] at hkind
    · simp [ColumnKind.of] at hkind
    · rw [compareValues, cmp_int]
  · rcases hi with rfl | rfl <;> simp [ColumnKind.of] at hkind
  · rcases hi with rfl | rfl <;> simp [ColumnKind.of] at hkind
  · rcases hj with rfl | rfl <;> simp [ColumnKind.of] at hkind
  · rfl
  · simp [ColumnKind.of] at hkind
  · rcases hj with rfl | rfl <;> simp [ColumnKind.of] at hkind
  · simp [ColumnKind.of] at hkind
  · rw [compareValues, cmp_congr (terminated_lt_iff hs ht) (terminated_lt_iff ht hs)]

/-- **Keys of one kind are prefix free.** -/
theorem key_eq_of_isPrefix {v w : PropValue} {a b rest : Bytes} (hkind : ColumnKind.of v = .of w)
    (hv : sortableKey v = some a) (hw : sortableKey w = some b) (h : a <+: b ++ rest) : a = b := by
  have hfixed : a.length = b.length → a = b := by
    intro hlen
    obtain ⟨t, ht⟩ := h
    exact (List.append_inj ht hlen).1
  rcases sortableKey_cases hv with ⟨i, hi, rfl⟩ | ⟨u, rfl, rfl⟩ | ⟨s, rfl, hs, rfl⟩ <;>
    rcases sortableKey_cases hw with ⟨j, hj, rfl⟩ | ⟨u', rfl, rfl⟩ | ⟨t, rfl, ht, rfl⟩
  · exact hfixed (by simp)
  · rcases hi with rfl | rfl <;> simp [ColumnKind.of] at hkind
  · rcases hi with rfl | rfl <;> simp [ColumnKind.of] at hkind
  · rcases hj with rfl | rfl <;> simp [ColumnKind.of] at hkind
  · exact hfixed (by simp)
  · simp [ColumnKind.of] at hkind
  · rcases hj with rfl | rfl <;> simp [ColumnKind.of] at hkind
  · simp [ColumnKind.of] at hkind
  · obtain ⟨r, hr⟩ := h
    rw [List.append_assoc, List.append_assoc, List.singleton_append, List.singleton_append] at hr
    rw [(Bytes.terminated_inj hs ht hr).1]

/-! ## Index keys -/

@[simp] theorem indexKey_eq_ok {v pk : PropValue} {k : Bytes} :
    indexKey v pk = .ok k ↔
      ∃ a b, sortableKey v = some a ∧ sortableKey pk = some b ∧ k = a ++ b := by
  rw [indexKey]
  simp only [Except.bind_eq_ok, sortableEncode_eq_ok]
  constructor
  · rintro ⟨a, ha, b, hb, hk⟩
    exact ⟨a, b, ha, hb, by simpa [pure, Except.pure, eq_comm] using hk⟩
  · rintro ⟨a, b, ha, hb, rfl⟩
    exact ⟨a, ha, b, hb, rfl⟩

theorem indexedValueLen_append {v : PropValue} {a : Bytes} (h : sortableKey v = some a)
    (rest : Bytes) : indexedValueLen (.of v) (a ++ rest) = .ok a.length := by
  rcases sortableKey_cases h with ⟨i, rfl | rfl, rfl⟩ | ⟨u, rfl, rfl⟩ | ⟨s, rfl, hs, rfl⟩
  · simp [ColumnKind.of, indexedValueLen]
  · simp [ColumnKind.of, indexedValueLen]
  · simp [ColumnKind.of, indexedValueLen]
  · have hidx : (s.utf8 ++ [0] ++ rest).findIdx? (· == 0) = some s.utf8.length := by
      rw [List.findIdx?_eq_some_iff_getElem]
      refine ⟨by simp, by simp, fun j hj ↦ ?_⟩
      simp only [List.append_assoc, beq_iff_eq]
      rw [List.getElem_append_left hj]
      intro h0
      exact hs (h0 ▸ List.getElem_mem hj)
    simp only [ColumnKind.of, indexedValueLen, hidx]
    simp

/-- **The primary key is recovered from an index key.** -/
theorem pkFromIndexKey_append {v pk : PropValue} {a b : Bytes} (hv : sortableKey v = some a)
    (hpk : sortableKey pk = some b) : pkFromIndexKey (.of v) (.of pk) (a ++ b) = .ok pk := by
  rw [pkFromIndexKey, indexedValueLen_append hv, Except.ok_bind]
  have hle : a.length ≤ (a ++ b).length := by simp
  rw [Except.guardOr, if_pos hle, Except.ok_bind, List.drop_left,
    decodeSortable_of_sortableKey hpk]

/-- Index keys determine the value and the primary key they were made from. -/
theorem indexKey_inj {v v' pk pk' : PropValue} {k : Bytes} (hkind : ColumnKind.of v = .of v')
    (hpkKind : ColumnKind.of pk = .of pk') (h : indexKey v pk = .ok k)
    (h' : indexKey v' pk' = .ok k) : v = v' ∧ pk = pk' := by
  obtain ⟨a, b, ha, hb, rfl⟩ := indexKey_eq_ok.mp h
  obtain ⟨a', b', ha', hb', heq⟩ := indexKey_eq_ok.mp h'
  have haa : a = a' := key_eq_of_isPrefix hkind ha ha' ⟨b, heq⟩
  subst haa
  have hbb : b = b' := List.append_cancel_left heq
  subst hbb
  exact ⟨sortableKey_inj hkind ha ha', sortableKey_inj hpkKind hb hb'⟩

/-! ## Ranges of values and ranges of keys

An index key goes on after the value, so the byte bounds are not the keys of the endpoints: an
excluded lower bound has to skip all that starts with its key, and an included upper bound to admit
it. -/

/-- The values of a kind at or after a lower bound. -/
def LowerHolds : Bound PropValue → PropValue → Prop
  | .unbounded, _ => True
  | .included u, v => compareValues v u = some .gt ∨ compareValues v u = some .eq
  | .excluded u, v => compareValues v u = some .gt

/-- The values of a kind at or before an upper bound. -/
def UpperHolds : Bound PropValue → PropValue → Prop
  | .unbounded, _ => True
  | .included u, v => compareValues v u = some .lt ∨ compareValues v u = some .eq
  | .excluded u, v => compareValues v u = some .lt

/-- The endpoint, if any, is a key value of the kind. -/
def BoundKind (kind : ColumnKind) : Bound PropValue → Prop
  | .unbounded => True
  | .included u | .excluded u => ColumnKind.of u = kind ∧ ∃ k, sortableKey u = some k

theorem lowerBoundBytes_isOk {kind : ColumnKind} {b : Bound PropValue} (h : BoundKind kind b) :
    ∃ B, lowerBoundBytes b = .ok B := by
  cases b with
  | unbounded => exact ⟨_, rfl⟩
  | included u =>
    obtain ⟨-, k, hk⟩ := h
    exact ⟨_, by rw [lowerBoundBytes, sortableEncode_eq_ok.mpr hk]; rfl⟩
  | excluded u =>
    obtain ⟨-, k, hk⟩ := h
    exact ⟨_, by rw [lowerBoundBytes, sortableEncode_eq_ok.mpr hk]; rfl⟩

theorem upperBoundBytes_isOk {kind : ColumnKind} {b : Bound PropValue} (h : BoundKind kind b) :
    ∃ B, upperBoundBytes b = .ok B := by
  cases b with
  | unbounded => exact ⟨_, rfl⟩
  | included u =>
    obtain ⟨-, k, hk⟩ := h
    exact ⟨_, by rw [upperBoundBytes, sortableEncode_eq_ok.mpr hk]; rfl⟩
  | excluded u =>
    obtain ⟨-, k, hk⟩ := h
    exact ⟨_, by rw [upperBoundBytes, sortableEncode_eq_ok.mpr hk]; rfl⟩

/-- **A byte lower bound loses no key of a value in range**, whatever follows the value. -/
theorem lowerBoundBytes_above {b : Bound PropValue} {B : Bound Bytes} {v : PropValue} {a : Bytes}
    (hb : BoundKind (.of v) b) (hB : lowerBoundBytes b = .ok B) (hv : sortableKey v = some a)
    (h : LowerHolds b v) (rest : Bytes) : B.Above (a ++ rest) := by
  cases b with
  | unbounded =>
    obtain rfl : Bound.unbounded = B := by simpa [lowerBoundBytes] using hB
    trivial
  | included u =>
    obtain ⟨hkind, k, hk⟩ := hb
    obtain rfl : Bound.included k = B := by
      rw [lowerBoundBytes, sortableEncode_eq_ok.mpr hk] at hB
      exact Except.ok.inj hB
    rw [LowerHolds, compareValues_eq_cmp_key hkind.symm hv hk, Option.some_inj, Option.some_inj,
      Bytes.cmp_eq_gt, Bytes.cmp_eq_eq] at h
    have hle : k ≤ a := h.elim le_of_lt fun h ↦ h ▸ le_refl _
    exact le_trans hle (Bytes.le_of_isPrefix (List.prefix_append a rest))
  | excluded u =>
    obtain ⟨hkind, k, hk⟩ := hb
    rw [LowerHolds, compareValues_eq_cmp_key hkind.symm hv hk, Option.some_inj,
      Bytes.cmp_eq_gt] at h
    have hle : k ≤ a ++ rest :=
      le_trans (le_of_lt h) (Bytes.le_of_isPrefix (List.prefix_append a rest))
    have hnot : ¬k <+: a ++ rest := fun hpre ↦
      absurd (key_eq_of_isPrefix hkind hk hv hpre) (ne_of_lt h)
    rw [lowerBoundBytes, sortableEncode_eq_ok.mpr hk] at hB
    cases hub : Bytes.upperBound k with
    | none =>
      obtain rfl : Bound.unbounded = B := by simpa [hub, pure, Except.pure] using hB
      trivial
    | some c =>
      obtain rfl : Bound.included c = B := by simpa [hub, pure, Except.pure] using hB
      refine not_lt.mp fun hlt ↦ hnot (Bytes.isPrefix_iff.mpr ⟨hle, fun d hd ↦ ?_⟩)
      rw [hub, Option.some_inj] at hd
      exact hd ▸ hlt

/-- **A byte upper bound loses no key of a value in range.** -/
theorem upperBoundBytes_below {b : Bound PropValue} {B : Bound Bytes} {v : PropValue} {a : Bytes}
    (hb : BoundKind (.of v) b) (hB : upperBoundBytes b = .ok B) (hv : sortableKey v = some a)
    (h : UpperHolds b v) (rest : Bytes) : B.Below (a ++ rest) := by
  cases b with
  | unbounded =>
    obtain rfl : Bound.unbounded = B := by simpa [upperBoundBytes] using hB
    trivial
  | excluded u =>
    obtain ⟨hkind, k, hk⟩ := hb
    obtain rfl : Bound.excluded k = B := by
      rw [upperBoundBytes, sortableEncode_eq_ok.mpr hk] at hB
      exact Except.ok.inj hB
    rw [UpperHolds, compareValues_eq_cmp_key hkind.symm hv hk, Option.some_inj,
      Bytes.cmp_eq_lt] at h
    refine Bytes.append_lt_of_lt_of_not_isPrefix h (fun hpre ↦ ?_) rest
    exact absurd (key_eq_of_isPrefix hkind.symm hv hk ((List.append_nil k).symm ▸ hpre))
      (ne_of_lt h)
  | included u =>
    obtain ⟨hkind, k, hk⟩ := hb
    rw [UpperHolds, compareValues_eq_cmp_key hkind.symm hv hk, Option.some_inj, Option.some_inj,
      Bytes.cmp_eq_lt, Bytes.cmp_eq_eq] at h
    rw [upperBoundBytes, sortableEncode_eq_ok.mpr hk] at hB
    cases hub : Bytes.upperBound k with
    | none =>
      obtain rfl : Bound.unbounded = B := by simpa [hub, pure, Except.pure] using hB
      trivial
    | some c =>
      obtain rfl : Bound.excluded c = B := by simpa [hub, pure, Except.pure] using hB
      rcases h with hlt | rfl
      · have hlt' : a ++ rest < k := by
          refine Bytes.append_lt_of_lt_of_not_isPrefix hlt (fun hpre ↦ ?_) rest
          exact absurd (key_eq_of_isPrefix hkind.symm hv hk ((List.append_nil k).symm ▸ hpre))
            (ne_of_lt hlt)
        exact lt_trans hlt' (Bytes.lt_upperBound hub)
      · exact (Bytes.isPrefix_iff.mp (List.prefix_append a rest)).2 c hub

/-- Every string with the prefix has its index keys between the prefix bounds. -/
theorem sortableStrPrefixBounds_spec {p s : String} (h : p.utf8 <+: s.utf8) (rest : Bytes) :
    (sortableStrPrefixBounds p).1.Above (s.utf8 ++ [0] ++ rest) ∧
      (sortableStrPrefixBounds p).2.Below (s.utf8 ++ [0] ++ rest) := by
  have hpre : p.utf8 <+: s.utf8 ++ [0] ++ rest := by
    rw [List.append_assoc]
    exact h.trans (List.prefix_append _ _)
  obtain ⟨hle, hbelow⟩ := Bytes.isPrefix_iff.mp hpre
  rw [sortableStrPrefixBounds]
  split
  · exact ⟨trivial, trivial⟩
  · refine ⟨hle, ?_⟩
    cases hub : Bytes.upperBound p.utf8 with
    | none => trivial
    | some c => exact hbelow c hub
