import Mathlib.Data.List.Lex
import Mathlib.Data.List.Nodup
import Mathlib.Data.List.Pairwise
import Mathlib.Data.List.Perm.Basic
import Mathlib.Order.Lattice

/-!
# Finite ordered maps

A finite map kept as the list of its entries in strictly ascending key order, the order being part
of the structure. Point access, insertion, deletion, and range scans are computable; the lemmas
below reduce every one of them to `get?`, and `ext` recovers the map from it.

## Why a list with a proof

The tables of a storage engine are read in key order, so the order of the entries is part of what a
map is and not a property of how it was built. Two maps with the same lookups are then the same
map, and the equality of two databases can be stated as an equality.

## How it is used

* A change is described by what it does to `get?` (`get?_insert`, `get?_erase`, `get?_filter`); the
  entries are used only where a scan or a count is.
* A scan is described by its members and its order: `eq_range` says that there is only one such
  list, so a program that produces the right entries in ascending order has computed the range.
* `insertAll` and `eraseAll` are the effect of a loop of puts or deletes; the last entry for a key
  wins.
-/

/-- One end of a range. -/
inductive Bound (α : Type*) where
  | included (a : α)
  | excluded (a : α)
  | unbounded
  deriving DecidableEq, Repr

namespace Bound

variable {α β : Type*}

/-- Apply a function to the endpoint. -/
def map (f : α → β) : Bound α → Bound β
  | included a => included (f a)
  | excluded a => excluded (f a)
  | unbounded => unbounded

/-- An exclusive end, if there is one. -/
def stop : Option α → Bound α
  | some a => excluded a
  | none => unbounded

variable [LinearOrder α]

/-- `x` is at or after a lower bound. -/
def Above : Bound α → α → Prop
  | included a, x => a ≤ x
  | excluded a, x => a < x
  | unbounded, _ => True

/-- `x` is at or before an upper bound. -/
def Below : Bound α → α → Prop
  | included a, x => x ≤ a
  | excluded a, x => x < a
  | unbounded, _ => True

instance (b : Bound α) (x : α) : Decidable (b.Above x) := by
  cases b <;> unfold Above <;> infer_instance

instance (b : Bound α) (x : α) : Decidable (b.Below x) := by
  cases b <;> unfold Below <;> infer_instance

@[simp] theorem above_included {a x : α} : (included a).Above x ↔ a ≤ x := Iff.rfl

@[simp] theorem above_excluded {a x : α} : (excluded a).Above x ↔ a < x := Iff.rfl

@[simp] theorem above_unbounded {x : α} : (unbounded : Bound α).Above x := trivial

@[simp] theorem below_included {a x : α} : (included a).Below x ↔ x ≤ a := Iff.rfl

@[simp] theorem below_excluded {a x : α} : (excluded a).Below x ↔ x < a := Iff.rfl

@[simp] theorem below_unbounded {x : α} : (unbounded : Bound α).Below x := trivial

theorem Above.mono {b : Bound α} {x y : α} (h : b.Above x) (hxy : x ≤ y) : b.Above y := by
  cases b with
  | included a => exact le_trans (show a ≤ x from h) hxy
  | excluded a => exact lt_of_lt_of_le (show a < x from h) hxy
  | unbounded => trivial

theorem Below.mono {b : Bound α} {x y : α} (h : b.Below y) (hxy : x ≤ y) : b.Below x := by
  cases b with
  | included a => exact le_trans hxy (show y ≤ a from h)
  | excluded a => exact lt_of_le_of_lt hxy (show y < a from h)
  | unbounded => trivial

end Bound

/-- A finite map with its entries in strictly ascending key order. -/
structure OrdMap (K V : Type*) [LinearOrder K] where
  /-- The entries, ascending. -/
  entries : List (K × V)
  /-- Keys strictly ascend, so each occurs once. -/
  sorted : entries.Pairwise fun a b ↦ a.1 < b.1

namespace OrdMap

variable {K V W : Type*} [LinearOrder K]

instance [DecidableEq V] : DecidableEq (OrdMap K V) := fun a b ↦
  decidable_of_iff (a.entries = b.entries) (by cases a; cases b; simp)

/-! ## Lookup

An entry is found by its key, because no key stands twice: `mem_entries` says that the entries and
the lookups tell the same, and most of what follows is about lookups. -/

/-- The value stored under `k`. -/
def get? (m : OrdMap K V) (k : K) : Option V :=
  (m.entries.find? fun e ↦ decide (e.1 = k)).map Prod.snd

/-- Whether a key is present. -/
def contains (m : OrdMap K V) (k : K) : Bool := (m.get? k).isSome

theorem entries_inj {m m' : OrdMap K V} (h : m.entries = m'.entries) : m = m' := by
  cases m
  cases m'
  simpa using h

private theorem snd_eq_of_pairwise {l : List (K × V)} (h : l.Pairwise fun a b ↦ a.1 < b.1) {k : K}
    {v w : V} (hv : (k, v) ∈ l) (hw : (k, w) ∈ l) : v = w := by
  induction l with
  | nil => simp at hv
  | cons e l ih =>
    rw [List.pairwise_cons] at h
    rcases List.mem_cons.mp hv with rfl | hv' <;> rcases List.mem_cons.mp hw with hw' | hw'
    · simpa using hw'.symm
    · exact absurd (h.1 _ hw') (lt_irrefl _)
    · subst hw'
      exact absurd (h.1 _ hv') (lt_irrefl _)
    · exact ih h.2 hv' hw'

theorem mem_entries {m : OrdMap K V} {k : K} {v : V} :
    (k, v) ∈ m.entries ↔ m.get? k = some v := by
  rw [get?, Option.map_eq_some_iff]
  constructor
  · intro h
    cases hf : m.entries.find? fun e ↦ decide (e.1 = k) with
    | none =>
      rw [List.find?_eq_none] at hf
      exact absurd (hf _ h) (by simp)
    | some e =>
      have hk : e.1 = k := by simpa using List.find?_some hf
      have he : e ∈ m.entries := List.mem_of_find?_eq_some hf
      refine ⟨e, rfl, ?_⟩
      obtain ⟨k', w⟩ := e
      subst hk
      exact snd_eq_of_pairwise m.sorted he h
  · rintro ⟨⟨k', w⟩, hf, rfl⟩
    have hk : k' = k := by simpa using List.find?_some hf
    subst hk
    exact List.mem_of_find?_eq_some hf

theorem get?_eq_none {m : OrdMap K V} {k : K} :
    m.get? k = none ↔ ∀ v, (k, v) ∉ m.entries := by
  constructor
  · intro h v hv
    rw [mem_entries, h] at hv
    exact absurd hv (by simp)
  · intro h
    cases hg : m.get? k with
    | none => rfl
    | some v => exact absurd (mem_entries.mpr hg) (h v)

theorem contains_iff {m : OrdMap K V} {k : K} : m.contains k = true ↔ ∃ v, m.get? k = some v := by
  rw [contains, Option.isSome_iff_exists]

private theorem entries_eq_of_mem_iff {l l' : List (K × V)}
    (hl : l.Pairwise fun a b ↦ a.1 < b.1) (hl' : l'.Pairwise fun a b ↦ a.1 < b.1)
    (h : ∀ e, e ∈ l ↔ e ∈ l') : l = l' := by
  have nodup : ∀ {l : List (K × V)}, (l.Pairwise fun a b ↦ a.1 < b.1) → l.Nodup := by
    intro l hl
    exact hl.imp fun {a b} hab heq ↦ absurd (heq ▸ hab) (lt_irrefl _)
  refine List.Perm.eq_of_pairwise (fun a b _ _ hab hba ↦ ?_) hl hl'
    ((List.perm_ext_iff_of_nodup (nodup hl) (nodup hl')).mpr h)
  exact absurd (lt_trans hab hba) (lt_irrefl _)

/-- Maps with the same lookups are equal. -/
theorem ext {m m' : OrdMap K V} (h : ∀ k, m.get? k = m'.get? k) : m = m' := by
  apply entries_inj
  refine entries_eq_of_mem_iff m.sorted m'.sorted fun ⟨k, v⟩ ↦ ?_
  rw [mem_entries, mem_entries, h]

/-! ## Construction -/

/-- The empty map. -/
def empty : OrdMap K V := ⟨[], List.Pairwise.nil⟩

instance : EmptyCollection (OrdMap K V) := ⟨empty⟩

instance : Inhabited (OrdMap K V) := ⟨empty⟩

@[simp] theorem get?_empty (k : K) : (∅ : OrdMap K V).get? k = none := rfl

@[simp] theorem entries_empty : (∅ : OrdMap K V).entries = [] := rfl

/-- Store `v` under `k`, replacing what was there. -/
def insert (m : OrdMap K V) (k : K) (v : V) : OrdMap K V where
  entries := (m.entries.filter fun e ↦ decide (e.1 < k)) ++
    (k, v) :: m.entries.filter fun e ↦ decide (k < e.1)
  sorted := by
    rw [List.pairwise_append, List.pairwise_cons]
    refine ⟨m.sorted.filter _, ⟨?_, m.sorted.filter _⟩, ?_⟩
    · intro e he
      simpa using (List.mem_filter.mp he).2
    · intro a ha b hb
      have hak : a.1 < k := by simpa using (List.mem_filter.mp ha).2
      rcases List.mem_cons.mp hb with rfl | hb'
      · exact hak
      · have hkb : k < b.1 := by simpa using (List.mem_filter.mp hb').2
        exact lt_trans hak hkb

/-- Keep the entries satisfying `p`. -/
def filter (m : OrdMap K V) (p : K → V → Bool) : OrdMap K V :=
  ⟨m.entries.filter fun e ↦ p e.1 e.2, m.sorted.filter _⟩

/-- Remove `k`. -/
def erase (m : OrdMap K V) (k : K) : OrdMap K V := m.filter fun k' _ ↦ decide (k' ≠ k)

theorem mem_entries_insert {m : OrdMap K V} {k k' : K} {v w : V} :
    (k', w) ∈ (m.insert k v).entries ↔ (k' = k ∧ w = v) ∨ (k' ≠ k ∧ (k', w) ∈ m.entries) := by
  simp only [insert, List.mem_append, List.mem_cons, List.mem_filter, decide_eq_true_eq,
    Prod.mk.injEq]
  constructor
  · rintro (⟨h1, h2⟩ | h | ⟨h1, h2⟩)
    · exact Or.inr ⟨ne_of_lt h2, h1⟩
    · exact Or.inl h
    · exact Or.inr ⟨ne_of_gt h2, h1⟩
  · rintro (h | ⟨h1, h2⟩)
    · exact Or.inr (Or.inl h)
    · rcases lt_or_gt_of_ne h1 with h | h
      · exact Or.inl ⟨h2, h⟩
      · exact Or.inr (Or.inr ⟨h2, h⟩)

@[grind =] theorem get?_insert (m : OrdMap K V) (k k' : K) (v : V) :
    (m.insert k v).get? k' = if k' = k then some v else m.get? k' := by
  ext w
  rw [← mem_entries, mem_entries_insert, mem_entries]
  by_cases h : k' = k
  · simp [h, eq_comm]
  · simp [h]

@[simp] theorem get?_insert_self (m : OrdMap K V) (k : K) (v : V) :
    (m.insert k v).get? k = some v := by rw [get?_insert, if_pos rfl]

theorem get?_insert_of_ne (m : OrdMap K V) {k k' : K} (v : V) (h : k' ≠ k) :
    (m.insert k v).get? k' = m.get? k' := by rw [get?_insert, if_neg h]

@[grind =] theorem get?_filter (m : OrdMap K V) (p : K → V → Bool) (k : K) :
    (m.filter p).get? k = (m.get? k).filter (p k) := by
  ext w
  rw [← mem_entries, filter, List.mem_filter, mem_entries, Option.filter_eq_some_iff]

@[grind =] theorem get?_erase (m : OrdMap K V) (k k' : K) :
    (m.erase k).get? k' = if k' = k then none else m.get? k' := by
  rw [erase, get?_filter]
  by_cases h : k' = k
  · rw [if_pos h]
    cases m.get? k' with
    | none => rfl
    | some v => simp [h]
  · rw [if_neg h]
    cases m.get? k' with
    | none => rfl
    | some v => simp [h]

@[simp] theorem get?_erase_self (m : OrdMap K V) (k : K) : (m.erase k).get? k = none := by
  rw [get?_erase, if_pos rfl]

theorem get?_erase_of_ne (m : OrdMap K V) {k k' : K} (h : k' ≠ k) :
    (m.erase k).get? k' = m.get? k' := by rw [get?_erase, if_neg h]

theorem contains_insert {m : OrdMap K V} {k k' : K} {v : V} :
    (m.insert k v).contains k' = true ↔ k' = k ∨ m.contains k' = true := by
  rw [contains, get?_insert, contains]
  split <;> simp_all

theorem contains_erase {m : OrdMap K V} {k k' : K} :
    (m.erase k).contains k' = true ↔ k' ≠ k ∧ m.contains k' = true := by
  rw [contains, get?_erase, contains]
  split <;> simp_all

@[simp] theorem contains_empty (k : K) : (∅ : OrdMap K V).contains k = false := rfl

/-- Insert a list of entries from left to right. -/
def insertAll (m : OrdMap K V) (l : List (K × V)) : OrdMap K V :=
  l.foldl (fun m e ↦ m.insert e.1 e.2) m

theorem get?_insertAll {m : OrdMap K V} {l : List (K × V)} (hl : (l.map Prod.fst).Nodup) {k : K}
    {v : V} : (m.insertAll l).get? k = some v ↔
      (k, v) ∈ l ∨ (k ∉ l.map Prod.fst ∧ m.get? k = some v) := by
  induction l generalizing m with
  | nil => simp [insertAll]
  | cons e l ih =>
    obtain ⟨a, w⟩ := e
    rw [List.map_cons, List.nodup_cons] at hl
    have hstep : m.insertAll ((a, w) :: l) = (m.insert a w).insertAll l := rfl
    have hnot : ∀ v, (a, v) ∉ l := fun v hv ↦ hl.1 (List.mem_map.mpr ⟨_, hv, rfl⟩)
    rw [hstep, ih hl.2, get?_insert]
    by_cases ha : k = a
    · subst ha
      simp [hl.1, hnot, eq_comm]
    · simp [ha]

/-- Remove a list of keys. -/
def eraseAll (m : OrdMap K V) (l : List K) : OrdMap K V := l.foldl erase m

theorem get?_eraseAll (m : OrdMap K V) (l : List K) (k : K) :
    (m.eraseAll l).get? k = if k ∈ l then none else m.get? k := by
  induction l generalizing m with
  | nil => simp [eraseAll]
  | cons a l ih =>
    have hstep : m.eraseAll (a :: l) = (m.erase a).eraseAll l := rfl
    rw [hstep, ih, get?_erase]
    by_cases hl : k ∈ l
    · simp [hl]
    · by_cases ha : k = a
      · simp [ha]
      · simp [hl, ha]

/-! ## Keys and ranges

A bound is a half line, so a range needs no convention for what is before the first key or after
the last one. Bounds that cross give the empty range. -/

/-- The keys, ascending. -/
def keys (m : OrdMap K V) : List K := m.entries.map Prod.fst

theorem mem_keys {m : OrdMap K V} {k : K} : k ∈ m.keys ↔ ∃ v, m.get? k = some v := by
  simp only [keys, List.mem_map, Prod.exists, exists_and_right, exists_eq_right, mem_entries]

theorem keys_sorted (m : OrdMap K V) : m.keys.Pairwise (· < ·) := by
  rw [keys, List.pairwise_map]
  exact m.sorted

theorem keys_nodup (m : OrdMap K V) : m.keys.Nodup := m.keys_sorted.imp ne_of_lt

theorem entries_nodup (m : OrdMap K V) : m.entries.Nodup :=
  List.Nodup.of_map Prod.fst m.keys_nodup

/-- The entries between two bounds, ascending. -/
def range (m : OrdMap K V) (lo hi : Bound K) : List (K × V) :=
  m.entries.filter fun e ↦ decide (lo.Above e.1 ∧ hi.Below e.1)

theorem mem_range {m : OrdMap K V} {lo hi : Bound K} {k : K} {v : V} :
    (k, v) ∈ m.range lo hi ↔ m.get? k = some v ∧ lo.Above k ∧ hi.Below k := by
  rw [range, List.mem_filter, mem_entries, decide_eq_true_iff]

theorem range_sorted (m : OrdMap K V) (lo hi : Bound K) :
    (m.range lo hi).Pairwise fun a b ↦ a.1 < b.1 := m.sorted.filter _

theorem range_unbounded (m : OrdMap K V) : m.range .unbounded .unbounded = m.entries := by
  rw [range]
  exact List.filter_eq_self.mpr (by simp)

/-- A strictly ascending list with the right members is the range. -/
theorem eq_range {m : OrdMap K V} {lo hi : Bound K} {l : List (K × V)}
    (hs : l.Pairwise fun a b ↦ a.1 < b.1)
    (hmem : ∀ k v, (k, v) ∈ l ↔ m.get? k = some v ∧ lo.Above k ∧ hi.Below k) :
    l = m.range lo hi := by
  refine entries_eq_of_mem_iff hs (m.range_sorted lo hi) fun ⟨k, v⟩ ↦ ?_
  rw [hmem, mem_range]

theorem eq_empty_iff {m : OrdMap K V} : m = ∅ ↔ ∀ k, m.get? k = none := by
  constructor
  · rintro rfl k
    rfl
  · intro h
    exact ext fun k ↦ by rw [h k, get?_empty]

theorem eq_empty_of_entries {m : OrdMap K V} (h : m.entries = []) : m = ∅ := entries_inj h

/-- The number of entries. -/
def size (m : OrdMap K V) : ℕ := m.entries.length

theorem size_insert {m : OrdMap K V} {k : K} (v : V) (h : m.get? k = none) :
    (m.insert k v).size = m.size + 1 := by
  have hsplit : m.entries.filter (fun e ↦ decide (k < e.1)) =
      m.entries.filter fun e ↦ !decide (e.1 < k) := by
    refine List.filter_congr fun ⟨k', w⟩ he ↦ ?_
    have hne : k' ≠ k := by
      rintro rfl
      exact get?_eq_none.mp h w he
    rw [← decide_not, decide_eq_decide, not_lt]
    exact ⟨le_of_lt, fun hle ↦ lt_of_le_of_ne hle (Ne.symm hne)⟩
  have hlen := List.length_eq_length_filter_add (l := m.entries) fun e ↦ decide (e.1 < k)
  have hins : (m.insert k v).entries = (m.entries.filter fun e ↦ decide (e.1 < k)) ++
      (k, v) :: m.entries.filter fun e ↦ decide (k < e.1) := rfl
  rw [size, size, hins, hsplit, List.length_append, List.length_cons, hlen]
  omega

theorem insert_erase {m : OrdMap K V} {k : K} {v : V} (h : m.get? k = some v) :
    (m.erase k).insert k v = m := by
  refine ext fun k' ↦ ?_
  rw [get?_insert]
  split
  · rename_i hk
    rw [hk, h]
  · rename_i hk
    rw [get?_erase_of_ne m hk]

theorem size_erase {m : OrdMap K V} {k : K} {v : V} (h : m.get? k = some v) :
    (m.erase k).size + 1 = m.size := by
  rw [← size_insert v (m.get?_erase_self k), insert_erase h]

theorem erase_of_get?_eq_none {m : OrdMap K V} {k : K} (h : m.get? k = none) : m.erase k = m := by
  refine ext fun k' ↦ ?_
  rw [get?_erase]
  split
  · rename_i hk
    rw [hk, h]
  · rfl

theorem erase_insert {m : OrdMap K V} {k : K} (v : V) (h : m.get? k = none) :
    (m.insert k v).erase k = m := by
  refine ext fun k' ↦ ?_
  rw [get?_erase]
  split
  · rename_i hk
    rw [hk, h]
  · rename_i hk
    rw [get?_insert_of_ne m v hk]

/-- An entry can be counted first. -/
theorem entries_perm {m : OrdMap K V} {k : K} {v : V} (h : m.get? k = some v) :
    m.entries.Perm ((k, v) :: (m.erase k).entries) := by
  have hnot : (k, v) ∉ (m.erase k).entries := by
    rw [mem_entries, get?_erase_self]
    simp
  refine (List.perm_ext_iff_of_nodup m.entries_nodup
    (List.nodup_cons.mpr ⟨hnot, entries_nodup _⟩)).mpr fun ⟨k', w⟩ ↦ ?_
  rw [mem_entries, List.mem_cons, mem_entries, get?_erase, Prod.mk.injEq]
  by_cases hk : k' = k
  · subst hk
    simp [h, eq_comm]
  · simp [hk]

theorem size_eq_zero {m : OrdMap K V} : m.size = 0 ↔ ∀ k, m.get? k = none := by
  rw [size, List.length_eq_zero_iff, ← eq_empty_iff]
  exact ⟨fun h ↦ entries_inj h, fun h ↦ h ▸ rfl⟩

theorem eq_insert_of_entries {m m' : OrdMap K V} {k : K} {v : V}
    (h : m'.entries = m.entries ++ [(k, v)]) : m.get? k = none ∧ m' = m.insert k v := by
  have hsorted := m'.sorted
  rw [h, List.pairwise_append] at hsorted
  have hlt : ∀ e ∈ m.entries, e.1 < k := fun e he ↦ hsorted.2.2 e he (k, v) (by simp)
  refine ⟨get?_eq_none.mpr fun w hw ↦ lt_irrefl k (hlt (k, w) hw), ext fun k' ↦ ?_⟩
  ext w
  rw [← mem_entries, ← mem_entries, h, mem_entries_insert, List.mem_append, List.mem_singleton,
    Prod.mk.injEq]
  constructor
  · rintro (hw | hw)
    · exact .inr ⟨ne_of_lt (hlt _ hw), hw⟩
    · exact .inl hw
  · rintro (hw | ⟨-, hw⟩)
    · exact .inr hw
    · exact .inl hw

/-- Transform the values, dropping the entries without a result. -/
def filterMap (m : OrdMap K V) (f : V → Option W) : OrdMap K W where
  entries := m.entries.filterMap fun e ↦ (f e.2).map (e.1, ·)
  sorted := by
    rw [List.pairwise_filterMap]
    refine m.sorted.imp fun {a b} hab x hx y hy ↦ ?_
    obtain ⟨_, -, rfl⟩ := Option.map_eq_some_iff.mp hx
    obtain ⟨_, -, rfl⟩ := Option.map_eq_some_iff.mp hy
    exact hab

@[simp] theorem get?_filterMap (m : OrdMap K V) (f : V → Option W) (k : K) :
    (m.filterMap f).get? k = (m.get? k).bind f := by
  ext w
  rw [← mem_entries, filterMap, List.mem_filterMap, Option.bind_eq_some_iff]
  constructor
  · rintro ⟨⟨k', v⟩, he, hw⟩
    obtain ⟨w', hw', hpair⟩ := Option.map_eq_some_iff.mp hw
    obtain ⟨rfl, rfl⟩ := Prod.mk.inj hpair
    exact ⟨v, mem_entries.mp he, hw'⟩
  · rintro ⟨v, hv, hw⟩
    exact ⟨(k, v), mem_entries.mpr hv, by rw [hw]; rfl⟩

/-- No entries. -/
def isEmpty (m : OrdMap K V) : Bool := m.entries.isEmpty

theorem isEmpty_iff {m : OrdMap K V} : m.isEmpty = true ↔ m = ∅ := by
  rw [isEmpty, List.isEmpty_iff]
  exact ⟨fun h ↦ entries_inj h, fun h ↦ h ▸ rfl⟩

end OrdMap
