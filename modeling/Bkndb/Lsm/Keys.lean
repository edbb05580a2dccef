import Bkndb.Basic.OrdMap
import Bkndb.Core.Error
import Bkndb.Core.Text

/-!
# Keys of the shared key space

`keys.rs` and the bounds of `engine/tx.rs`: the tables of the database share one ordered key space.
A key begins with the name of its table, the length of the name in front, so the keys of a table lie
next to each other and a range of user keys is a range of shared keys.

## Bounds

A range of user keys becomes a range of shared keys by putting the prefix in front. An end that is
open becomes the end of the table, before the first key that is above all keys with its prefix.
Bounds that cross are the empty range and are not handed on to the maps underneath, which would
panic.

A name that is longer than 255 bytes has no keys: making one is a panic.
-/

namespace Keys

/-- What the keys of a table begin with. -/
def tablePrefix (table : String) : Except BknError Bytes :=
  if table.utf8.length ≤ 255 then .ok (UInt8.ofNat table.utf8.length :: table.utf8)
  else .error (.panic "table name too long")

def encodeKey (table : String) (userKey : Bytes) : Except BknError Bytes :=
  (· ++ userKey) <$> tablePrefix table

/-- No key can lie within the bounds. -/
def boundsEmpty : Bound Bytes → Bound Bytes → Bool
  | .included a, .included b => b < a
  | .included a, .excluded b | .excluded a, .included b | .excluded a, .excluded b => b ≤ a
  | _, _ => false

/-- The shared keys of a range of user keys: an open end is the end of the table. -/
def tableScanBounds (pre : Bytes) (start stop : Bound Bytes) : Bound Bytes × Bound Bytes :=
  (match start with
    | .unbounded => .included pre
    | other => other.map (pre ++ ·),
   match stop with
    | .unbounded => Bound.stop (Bytes.upperBound pre)
    | other => other.map (pre ++ ·))

/-- The name fits its length byte. -/
def Named (table : String) : Prop := table.utf8.length ≤ 255

instance (table : String) : Decidable (Named table) := inferInstanceAs (Decidable (_ ≤ _))

/-- What the keys of a table begin with, as bytes. -/
def prefixBytes (table : String) : Bytes := UInt8.ofNat table.utf8.length :: table.utf8

theorem tablePrefix_of_named {table : String} (h : Named table) :
    tablePrefix table = .ok (prefixBytes table) := if_pos h

theorem encodeKey_of_named {table : String} (h : Named table) (k : Bytes) :
    encodeKey table k = .ok (prefixBytes table ++ k) := by
  rw [encodeKey, tablePrefix_of_named h]
  rfl

theorem encodeKey_eq_ok {table : String} {k key : Bytes} (h : encodeKey table k = .ok key) :
    Named table ∧ key = prefixBytes table ++ k := by
  by_cases hname : Named table
  · rw [encodeKey_of_named hname] at h
    exact ⟨hname, (Except.ok.inj h).symm⟩
  · have hpanic : tablePrefix table = .error (.panic "table name too long") := if_neg hname
    rw [encodeKey, hpanic] at h
    cases h

/-- A key belongs to one table, and is the key of one user key there. -/
theorem prefixBytes_append_inj {t t' : String} (ht : Named t) (ht' : Named t') {k k' : Bytes}
    (h : prefixBytes t ++ k = prefixBytes t' ++ k') : t = t' ∧ k = k' := by
  rw [Named] at ht ht'
  obtain ⟨hlen, hrest⟩ := List.cons.inj h
  have hlen : t.utf8.length = t'.utf8.length := by
    have := congrArg UInt8.toNat hlen
    rw [UInt8.toNat_ofNat', UInt8.toNat_ofNat'] at this
    omega
  obtain ⟨hname, hkey⟩ := List.append_inj hrest hlen
  exact ⟨String.utf8_injective hname, hkey⟩

/-! ## Ranges -/

theorem boundsEmpty_iff {lo hi : Bound Bytes} (h : boundsEmpty lo hi = true) (k : Bytes) :
    ¬(lo.Above k ∧ hi.Below k) := by
  rintro ⟨habove, hbelow⟩
  cases lo <;> cases hi <;> simp [boundsEmpty] at h habove hbelow
  · exact absurd (habove.trans hbelow) (not_le.mpr h)
  · exact absurd (habove.trans_lt hbelow) (not_lt.mpr h)
  · exact absurd (habove.trans_le hbelow) (not_lt.mpr h)
  · exact absurd (habove.trans hbelow) (not_lt.mpr h)

/-- **The shared keys within the bounds of a table** are those of the user keys within the bounds. -/
theorem within_tableScanBounds {pre : Bytes} {start stop : Bound Bytes} {x : Bytes} :
    (tableScanBounds pre start stop).1.Above x ∧ (tableScanBounds pre start stop).2.Below x ↔
      ∃ k, x = pre ++ k ∧ start.Above k ∧ stop.Below k := by
  have hstart : ∀ k, (tableScanBounds pre start stop).1.Above (pre ++ k) ↔ start.Above k := by
    intro k
    cases start with
    | included a => exact Bytes.append_le_append_iff pre
    | excluded a => exact Bytes.append_lt_append_iff pre
    | unbounded => exact iff_of_true (Bytes.le_of_isPrefix (List.prefix_append ..)) trivial
  have hstop : ∀ k, (tableScanBounds pre start stop).2.Below (pre ++ k) ↔ stop.Below k := by
    intro k
    cases stop with
    | included a => exact Bytes.append_le_append_iff pre
    | excluded a => exact Bytes.append_lt_append_iff pre
    | unbounded =>
      refine iff_of_true ?_ trivial
      have hupper := (Bytes.isPrefix_iff.mp (List.prefix_append pre k)).2
      change (Bound.stop (Bytes.upperBound pre)).Below (pre ++ k)
      cases h : Bytes.upperBound pre with
      | none => trivial
      | some u => exact hupper u h
  constructor
  · rintro ⟨habove, hbelow⟩
    -- the lower bound is at or above the beginning of the table
    have hpre : pre ≤ x := by
      cases start with
      | included a => exact (Bytes.le_of_isPrefix (List.prefix_append pre a)).trans habove
      | excluded a => exact (Bytes.le_of_isPrefix (List.prefix_append pre a)).trans (le_of_lt habove)
      | unbounded => exact habove
    have hstarts : pre <+: x := by
      cases stop with
      | included b => exact Bytes.isPrefix_of_le_append hpre hbelow
      | excluded b => exact Bytes.isPrefix_of_le_append hpre (le_of_lt hbelow)
      | unbounded =>
        refine Bytes.isPrefix_iff.mpr ⟨hpre, fun u hu ↦ ?_⟩
        change (Bound.stop (Bytes.upperBound pre)).Below x at hbelow
        rw [hu] at hbelow
        exact hbelow
    obtain ⟨k, rfl⟩ := hstarts
    exact ⟨k, rfl, (hstart k).mp habove, (hstop k).mp hbelow⟩
  · rintro ⟨k, rfl, habove, hbelow⟩
    exact ⟨(hstart k).mpr habove, (hstop k).mpr hbelow⟩

/-- The part of the shared map that is one table. -/
def IsTable (D : OrdMap Bytes Bytes) (pre : Bytes) (T : OrdMap Bytes Bytes) : Prop :=
  ∀ k, T.get? k = D.get? (pre ++ k)

/-- The table of the shared map whose keys begin so. -/
def tableOf (D : OrdMap Bytes Bytes) (pre : Bytes) : OrdMap Bytes Bytes where
  entries := D.entries.filterMap fun e ↦
    if pre <+: e.1 then some (e.1.drop pre.length, e.2) else none
  sorted := by
    rw [List.pairwise_filterMap]
    refine D.sorted.imp fun {a b} hab x hx y hy ↦ ?_
    obtain ⟨⟨k, hk⟩, hx⟩ := Option.ite_none_right_eq_some.mp hx
    obtain ⟨⟨k', hk'⟩, hy⟩ := Option.ite_none_right_eq_some.mp hy
    obtain rfl := Option.some.inj hx
    obtain rfl := Option.some.inj hy
    rw [← hk, ← hk', Bytes.append_lt_append_iff] at hab
    rwa [← hk, ← hk', List.drop_left, List.drop_left]

theorem isTable_tableOf (D : OrdMap Bytes Bytes) (pre : Bytes) : IsTable D pre (tableOf D pre) := by
  intro k
  refine Option.ext fun v ↦ ?_
  rw [← OrdMap.mem_entries, ← OrdMap.mem_entries, tableOf, List.mem_filterMap]
  constructor
  · rintro ⟨e, he, hsome⟩
    obtain ⟨⟨k', hk'⟩, heq⟩ := Option.ite_none_right_eq_some.mp hsome
    rw [← hk', List.drop_left] at heq
    cases heq
    rwa [hk']
  · intro he
    refine ⟨_, he, ?_⟩
    rw [if_pos (List.prefix_append ..), List.drop_left]

/-- **A range of the shared map, stripped of the prefix, is the range of the table.** -/
theorem IsTable.range {D T : OrdMap Bytes Bytes} {pre : Bytes} (h : IsTable D pre T)
    (start stop : Bound Bytes) :
    (D.range (tableScanBounds pre start stop).1 (tableScanBounds pre start stop).2).map
        (fun e ↦ (e.1.drop pre.length, e.2)) = T.range start stop := by
  have hmem : ∀ e ∈ D.range (tableScanBounds pre start stop).1 (tableScanBounds pre start stop).2,
      ∃ k, e.1 = pre ++ k := by
    rintro ⟨x, v⟩ he
    obtain ⟨-, hin⟩ := OrdMap.mem_range.mp he
    obtain ⟨k, hk, -⟩ := within_tableScanBounds.mp hin
    exact ⟨k, hk⟩
  refine OrdMap.eq_range ?_ fun k v ↦ ?_
  · rw [List.pairwise_map]
    refine (OrdMap.range_sorted D _ _).imp_of_mem fun {a b} ha hb hab ↦ ?_
    obtain ⟨k, hk⟩ := hmem a ha
    obtain ⟨k', hk'⟩ := hmem b hb
    rw [hk, hk', Bytes.append_lt_append_iff] at hab
    rwa [hk, hk', List.drop_left, List.drop_left]
  · rw [List.mem_map, h k]
    constructor
    · rintro ⟨⟨x, v'⟩, he, heq⟩
      obtain ⟨hget, hin⟩ := OrdMap.mem_range.mp he
      obtain ⟨k', rfl, habove, hbelow⟩ := within_tableScanBounds.mp hin
      rw [List.drop_left] at heq
      cases heq
      exact ⟨hget, habove, hbelow⟩
    · rintro ⟨hget, habove, hbelow⟩
      refine ⟨(pre ++ k, v), OrdMap.mem_range.mpr ⟨hget, within_tableScanBounds.mpr
        ⟨k, rfl, habove, hbelow⟩⟩, ?_⟩
      rw [List.drop_left]

end Keys
