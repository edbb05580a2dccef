import Bkndb.Basic.OrdMap

/-!
# Layered maps

A map kept as layers, newest first: what the first layer that knows a key holds for it is what the
layers together hold. A layer may hold a mark that the key is gone; `live` says what an entry means
to the reader. The layers denote the map of what is live, and the operations on layers (writing to
the top one, putting an empty one on top, merging the lowest ones) are described by what becomes of
that map.

## Two readings of a layer

A memtable or a table of an engine holds values and marks that a key was deleted. `lookup` reads
layers entry by entry, the newest layer that knows the key deciding, and `live` turns the entry
into what a reader sees. `Denotes` says that the two together describe one map; it is the only
thing that the proofs about snapshots, flushes and merges say of the layers.

## Marks

A mark may be dropped only where no older layer could hold the key. `Denotes.merge` therefore
replaces the *lowest* layers by what is live in them: with nothing below, a mark and an absent key
say the same.
-/

namespace Layers

variable {K V W : Type*} [LinearOrder K]

/-- What a layer holds for a key. -/
def find (l : List (K × V)) (k : K) : Option V :=
  (l.find? fun e ↦ decide (e.1 = k)).map Prod.snd

/-- What the newest layer that knows a key holds for it. -/
def lookup (ls : List (List (K × V))) (k : K) : Option V := ls.findSome? (find · k)

/-- The keys of a layer ascend. -/
def Ascending (l : List (K × V)) : Prop := l.Pairwise fun e e' ↦ e.1 < e'.1

instance (l : List (K × V)) : Decidable (Ascending l) := inferInstanceAs (Decidable (List.Pairwise _ l))

/-! ## One layer -/

@[simp] theorem find_nil (k : K) : find ([] : List (K × V)) k = none := rfl

theorem find_cons (e : K × V) (l : List (K × V)) (k : K) :
    find (e :: l) k = if e.1 = k then some e.2 else find l k := by
  rw [find, List.find?_cons]
  by_cases h : e.1 = k
  · simp [h]
  · simp [h, find]

theorem find_eq_none {l : List (K × V)} {k : K} (h : ∀ e ∈ l, e.1 ≠ k) : find l k = none := by
  rw [find, List.find?_eq_none.mpr fun e he ↦ by simpa using h e he]
  rfl

theorem find_append (l l' : List (K × V)) (k : K) :
    find (l ++ l') k = (find l k).or (find l' k) := by
  induction l with
  | nil => rfl
  | cons e l ih =>
    rw [List.cons_append, find_cons, find_cons, ih]
    split <;> rfl

theorem mem_of_find {l : List (K × V)} {k : K} {v : V} (h : find l k = some v) : (k, v) ∈ l := by
  obtain ⟨⟨k', v'⟩, he, rfl⟩ := Option.map_eq_some_iff.mp h
  have hkey : k' = k := by simpa using List.find?_some he
  exact hkey ▸ List.mem_of_find?_eq_some he

theorem find_entries (m : OrdMap K V) (k : K) : find m.entries k = m.get? k := rfl

theorem find_filter_key (l : List (K × V)) (q : K → Bool) (k : K) :
    find (l.filter fun e ↦ q e.1) k = if q k then find l k else none := by
  induction l with
  | nil => simp
  | cons e l ih =>
    rw [List.filter_cons, find_cons]
    by_cases hk : e.1 = k
    · subst hk
      by_cases hq : q e.1 = true
      · rw [if_pos hq, find_cons, if_pos rfl, if_pos hq, if_pos rfl]
      · rw [if_neg hq, ih, if_neg hq, if_neg hq]
    · rw [if_neg hk]
      split
      · rw [find_cons, if_neg hk, ih]
      · exact ih

/-! ## All layers -/

@[simp] theorem lookup_nil (k : K) : lookup ([] : List (List (K × V))) k = none := rfl

theorem lookup_cons (l : List (K × V)) (ls : List (List (K × V))) (k : K) :
    lookup (l :: ls) k = (find l k).or (lookup ls k) := by
  rw [lookup, List.findSome?_cons, lookup]
  cases find l k <;> rfl

@[simp] theorem lookup_nil_cons (ls : List (List (K × V))) (k : K) :
    lookup ([] :: ls) k = lookup ls k := by
  rw [lookup_cons, find_nil, Option.none_or]

theorem lookup_append (ls ls' : List (List (K × V))) (k : K) :
    lookup (ls ++ ls') k = (lookup ls k).or (lookup ls' k) := by
  induction ls with
  | nil => rfl
  | cons l ls ih => rw [List.cons_append, lookup_cons, lookup_cons, ih, Option.or_assoc]

theorem lookup_eq_none {ls : List (List (K × V))} {k : K} (h : ∀ l ∈ ls, ∀ e ∈ l, e.1 ≠ k) :
    lookup ls k = none := by
  rw [lookup, List.findSome?_eq_none_iff]
  exact fun l hl ↦ find_eq_none (h l hl)

theorem exists_mem_of_lookup {ls : List (List (K × V))} {k : K} {v : V} (h : lookup ls k = some v) :
    ∃ l ∈ ls, (k, v) ∈ l := by
  obtain ⟨l, hl, hfind⟩ := List.exists_of_findSome?_eq_some h
  exact ⟨l, hl, mem_of_find hfind⟩

theorem lookup_filter_key (ls : List (List (K × V))) (q : K → Bool) (k : K) :
    lookup (ls.map fun l ↦ l.filter fun e ↦ q e.1) k = if q k then lookup ls k else none := by
  induction ls with
  | nil => simp
  | cons l ls ih =>
    rw [List.map_cons, lookup_cons, lookup_cons, ih, find_filter_key]
    split <;> rfl

/-! ## The map the layers denote -/

variable (live : V → Option W)

/-- The layers hold exactly the entries of a map. -/
def Denotes (ls : List (List (K × V))) (D : OrdMap K W) : Prop :=
  ∀ k, D.get? k = (lookup ls k).bind live

variable {live}

theorem Denotes.congr {ls ls' : List (List (K × V))} {D : OrdMap K W} (h : Denotes live ls D)
    (heq : ∀ k, lookup ls' k = lookup ls k) : Denotes live ls' D := fun k ↦ by rw [heq k]; exact h k

theorem Denotes.unique {ls : List (List (K × V))} {D D' : OrdMap K W} (h : Denotes live ls D)
    (h' : Denotes live ls D') : D = D' := OrdMap.ext fun k ↦ (h k).trans (h' k).symm

/-- An empty layer may be put in anywhere. -/
theorem denotes_insert_nil {above below : List (List (K × V))} {D : OrdMap K W} :
    Denotes live (above ++ [] :: below) D ↔ Denotes live (above ++ below) D := by
  have heq : ∀ k, lookup (above ++ [] :: below) k = lookup (above ++ below) k := by
    intro k
    rw [lookup_append, lookup_append, lookup_nil_cons]
  exact ⟨fun h ↦ h.congr fun k ↦ (heq k).symm, fun h ↦ h.congr heq⟩

/-- An empty layer on top says nothing. -/
theorem denotes_nil_cons {below : List (List (K × V))} {D : OrdMap K W} :
    Denotes live ([] :: below) D ↔ Denotes live below D := by
  have h : Denotes live ([] ++ [] :: below) D ↔ Denotes live ([] ++ below) D := denotes_insert_nil
  exact h

theorem find_map_entries (E : OrdMap K W) (value : W → V) (k : K) :
    find (E.entries.map fun e ↦ (e.1, value e.2)) k = (E.get? k).map value := by
  rw [← find_entries, find, find, List.find?_map, Option.map_map, Option.map_map]
  rfl

/-- A map as the only layer denotes itself. -/
theorem denotes_map (E : OrdMap K W) {value : W → V} (hlive : ∀ w, live (value w) = some w) :
    Denotes live [E.entries.map fun e ↦ (e.1, value e.2)] E := by
  intro k
  rw [lookup_cons, lookup_nil, Option.or_none, find_map_entries]
  cases E.get? k with
  | none => rfl
  | some w => exact (hlive w).symm

/-- The lowest layers may be replaced by what is live in them. -/
theorem Denotes.merge {above below : List (List (K × V))} {D E : OrdMap K W} {value : W → V}
    (h : Denotes live (above ++ below) D) (hbelow : Denotes live below E)
    (hlive : ∀ w, live (value w) = some w) :
    Denotes live (above ++ [E.entries.map fun e ↦ (e.1, value e.2)]) D := by
  intro k
  rw [h k, lookup_append, lookup_append, lookup_cons, lookup_nil, Option.or_none, find_map_entries,
    hbelow k]
  cases lookup above k with
  | some v => rfl
  | none =>
    rw [Option.none_or, Option.none_or]
    cases lookup below k with
    | none => rfl
    | some v =>
      change live v = ((live v).map value).bind live
      cases live v with
      | none => rfl
      | some w => exact (hlive w).symm

/-! ## Writing to the top layer -/

/-- A batch of writes, some of which delete. -/
abbrev Batch (K W : Type*) [LinearOrder K] := OrdMap K (Option W)

/-- The map after a batch. -/
def applyBatch (D : OrdMap K W) (b : Batch K W) : OrdMap K W :=
  b.entries.foldl (fun D e ↦ e.2.elim (D.erase e.1) (D.insert e.1)) D

/-- The layer after a batch. -/
def writeBatch (mark : Option W → V) (m : OrdMap K V) (b : Batch K W) : OrdMap K V :=
  b.entries.foldl (fun m e ↦ m.insert e.1 (mark e.2)) m

theorem get?_foldl_apply {D : OrdMap K W} {l : List (K × Option W)} (h : Ascending l) (k : K) :
    (l.foldl (fun D e ↦ e.2.elim (D.erase e.1) (D.insert e.1)) D).get? k =
      (find l k).getD (D.get? k) := by
  induction l generalizing D with
  | nil => rfl
  | cons e l ih =>
    obtain ⟨hhead, htail⟩ := List.pairwise_cons.mp h
    rw [List.foldl_cons, ih htail, find_cons]
    by_cases hk : e.1 = k
    · rw [if_pos hk, find_eq_none fun e' he' ↦ hk ▸ (hhead e' he').ne']
      cases he : e.2 with
      | none => simp [← hk]
      | some w => simp [← hk]
    · rw [if_neg hk]
      congr 1
      cases he : e.2 with
      | none => exact OrdMap.get?_erase_of_ne D (Ne.symm hk)
      | some w => exact OrdMap.get?_insert_of_ne D w (Ne.symm hk)

theorem get?_applyBatch (D : OrdMap K W) (b : Batch K W) (k : K) :
    (applyBatch D b).get? k = (b.get? k).getD (D.get? k) := get?_foldl_apply b.sorted k

theorem get?_foldl_write {mark : Option W → V} {m : OrdMap K V} {l : List (K × Option W)}
    (h : Ascending l) (k : K) :
    (l.foldl (fun m e ↦ m.insert e.1 (mark e.2)) m).get? k =
      ((find l k).map mark).or (m.get? k) := by
  induction l generalizing m with
  | nil => rfl
  | cons e l ih =>
    obtain ⟨hhead, htail⟩ := List.pairwise_cons.mp h
    rw [List.foldl_cons, ih htail, find_cons]
    by_cases hk : e.1 = k
    · rw [if_pos hk, find_eq_none fun e' he' ↦ hk ▸ (hhead e' he').ne', ← hk]
      simp
    · rw [if_neg hk, OrdMap.get?_insert_of_ne m _ (Ne.symm hk)]

theorem get?_writeBatch {mark : Option W → V} (m : OrdMap K V) (b : Batch K W) (k : K) :
    (writeBatch mark m b).get? k = ((b.get? k).map mark).or (m.get? k) :=
  get?_foldl_write b.sorted k

/-- **A batch written to the top layer is applied to the map.** -/
theorem Denotes.writeBatch {mark : Option W → V} {m : OrdMap K V} {ls : List (List (K × V))}
    {D : OrdMap K W} (h : Denotes live (m.entries :: ls) D) (hmark : ∀ o, live (mark o) = o)
    (b : Batch K W) : Denotes live ((Layers.writeBatch mark m b).entries :: ls) (applyBatch D b) := by
  intro k
  rw [get?_applyBatch, lookup_cons, find_entries, get?_writeBatch, h k, lookup_cons, find_entries]
  cases b.get? k with
  | none => rfl
  | some o => exact (hmark o).symm

/-- **A batch on top of the layers is applied to the map.** -/
theorem Denotes.overlay {mark : Option W → V} {ls : List (List (K × V))} {D : OrdMap K W}
    (h : Denotes live ls D) (hmark : ∀ o, live (mark o) = o) (b : Batch K W) :
    Denotes live ((b.entries.map fun e ↦ (e.1, mark e.2)) :: ls) (applyBatch D b) := by
  intro k
  rw [get?_applyBatch, lookup_cons, find_map_entries, h k]
  cases b.get? k with
  | none => rfl
  | some o => exact (hmark o).symm

end Layers
