import Bkndb.Basic.OrdMap

/-!
# Grouping rows by key

Rows join groups as they arrive. A group is found through an index from the encoding of its key to
its place in a list; a key that the index does not hold takes the next place. The groups are then
the distinct keys of the rows, each with the rows of that key added up in the order they came
(`Grouped`): nothing in the result tells that an index was used, as long as two keys with one
encoding are one key.

## The index is an optimization

An implementation keeps a hash map from the encoding of a key to the place of its group and pushes
new groups to a vector. `Groups` is that pair. `Indexed` is the invariant that connects the two
halves, and `Grouped` is what a caller wants to know; `Grouped` mentions no encoding except through
the assumption that keys with one encoding are one key.

## Order

The groups stand in the order in which their keys were first met, and the rows of a group are added
up in the order in which they came. Sorting the groups, and showing that the order of the rows does
not matter, is left to the caller, who knows what is added up.
-/

namespace Grouping

/-- The groups in the order their keys were met, and the place of each encoded key. -/
structure Groups (κ β σ : Type) [LinearOrder β] where
  entries : List (κ × σ)
  index : OrdMap β ℕ

variable {κ β σ ρ : Type} [LinearOrder β] (encode : κ → β) (start : σ)

/-- The place of a key, after making one for a new key. -/
def slot (g : Groups κ β σ) (k : κ) : ℕ × Groups κ β σ :=
  match g.index.get? (encode k) with
  | some i => (i, g)
  | none =>
    (g.entries.length,
      ⟨g.entries ++ [(k, start)], g.index.insert (encode k) g.entries.length⟩)

/-- Change the state of the group at a place. -/
def Groups.update (g : Groups κ β σ) (i : ℕ) (f : σ → σ) : Groups κ β σ :=
  { g with entries := g.entries.modify i (Prod.map id f) }

variable (key : ρ → κ) (add : σ → ρ → σ)

/-- One row joins the group of its key. -/
def step (g : Groups κ β σ) (r : ρ) : Groups κ β σ :=
  let s := slot encode start g (key r)
  s.2.update s.1 (add · r)

/-- The rows of a key, added up in order. -/
def total (rows : List ρ) (k : κ) : σ :=
  (rows.filter fun r ↦ decide (encode (key r) = encode k)).foldl add start

/-- The index holds the place of every group under its encoded key. -/
def Indexed (g : Groups κ β σ) : Prop :=
  ∀ b i, g.index.get? b = some i ↔ ∃ e, g.entries[i]? = some e ∧ encode e.1 = b

/-- What grouping the rows gives. -/
structure Grouped (rows : List ρ) (g : Groups κ β σ) : Prop where
  indexed : Indexed encode g
  /-- Every group is that of a row, and holds the rows of its key. -/
  sound : ∀ e ∈ g.entries, e.1 ∈ rows.map key ∧ e.2 = total encode start key add rows e.1
  /-- Every row has its group. -/
  complete : ∀ r ∈ rows, key r ∈ g.entries.map Prod.fst

variable {encode start key add} {rows : List ρ} {g : Groups κ β σ}

theorem Indexed.get?_eq_none (h : Indexed encode g) {b : β} :
    g.index.get? b = none ↔ ∀ e ∈ g.entries, encode e.1 ≠ b := by
  rw [Option.eq_none_iff_forall_not_mem]
  constructor
  · rintro hnone e he rfl
    obtain ⟨i, hi⟩ := List.mem_iff_getElem?.mp he
    exact hnone i ((h _ _).mpr ⟨e, hi, rfl⟩)
  · intro hall i hi
    obtain ⟨e, he, rfl⟩ := (h b i).mp hi
    exact hall e (List.mem_of_getElem? he) rfl

theorem Indexed.eq_place (h : Indexed encode g) {i j : ℕ} {d e : κ × σ}
    (hi : g.entries[i]? = some d) (hj : g.entries[j]? = some e) (heq : encode d.1 = encode e.1) :
    i = j := by
  have hgi := (h (encode e.1) i).mpr ⟨d, hi, heq⟩
  have hgj := (h (encode e.1) j).mpr ⟨e, hj, rfl⟩
  exact Option.some.inj (hgi.symm.trans hgj)

/-- **The keys of the groups are distinct.** -/
theorem Grouped.nodup_keys (h : Grouped encode start key add rows g) :
    (g.entries.map Prod.fst).Nodup := by
  refine List.nodup_iff_getElem?_ne_getElem?.mpr fun i j hij hj heq ↦ ?_
  rw [List.length_map] at hj
  rw [List.getElem?_map, List.getElem?_map, List.getElem?_eq_getElem (hij.trans hj),
    List.getElem?_eq_getElem hj, Option.map_some, Option.map_some, Option.some.injEq] at heq
  have := h.indexed.eq_place (List.getElem?_eq_getElem (hij.trans hj))
    (List.getElem?_eq_getElem hj) (congrArg encode heq)
  omega

theorem grouped_nil : Grouped encode start key add [] (⟨[], ∅⟩ : Groups κ β σ) :=
  ⟨fun _ _ ↦ by simp, fun _ he ↦ by simp at he, fun _ hr ↦ by simp at hr⟩

/-- **The place of a key** holds the key with the rows it has so far, and the other groups are
unchanged. -/
theorem Grouped.slot (h : Grouped encode start key add rows g) (k : κ)
    (hk : ∀ r ∈ rows, encode (key r) = encode k → key r = k) :
    let s := slot encode start g k
    Indexed encode s.2 ∧ s.2.entries[s.1]? = some (k, total encode start key add rows k) ∧
      (∀ e ∈ s.2.entries, e ∈ g.entries ∨ e = (k, total encode start key add rows k)) ∧
      ∀ e ∈ g.entries, e ∈ s.2.entries := by
  unfold Grouping.slot
  cases hget : g.index.get? (encode k) with
  | some i =>
    obtain ⟨e, he, henc⟩ := (h.indexed _ _).mp hget
    obtain ⟨hmem, hstate⟩ := h.sound e (List.mem_of_getElem? he)
    obtain ⟨r, hr, hkey⟩ := List.mem_map.mp hmem
    have hek : e.1 = k := by
      rw [← hkey]
      exact hk r hr (by rw [hkey, henc])
    refine ⟨h.indexed, ?_, fun e he ↦ .inl he, fun e he ↦ he⟩
    simp only [he, ← hek, ← hstate]
  | none =>
    have hfresh := h.indexed.get?_eq_none.mp hget
    -- no row has the key yet
    have htotal : total encode start key add rows k = start := by
      rw [total, List.filter_eq_nil_iff.mpr fun r hr ↦ ?_, List.foldl_nil]
      obtain ⟨e, he, hkey⟩ := List.mem_map.mp (h.complete r hr)
      simpa [← hkey] using hfresh e he
    refine ⟨fun b i ↦ ?_, ?_, fun e he ↦ ?_, fun e he ↦ List.mem_append_left _ he⟩
    · rw [OrdMap.get?_insert]
      by_cases hb : b = encode k
      · subst hb
        rw [if_pos rfl, Option.some.injEq]
        constructor
        · rintro rfl
          exact ⟨(k, start), by simp, rfl⟩
        · rintro ⟨e, he, henc⟩
          rcases lt_trichotomy i g.entries.length with hlt | heq | hgt
          · rw [List.getElem?_append_left hlt] at he
            exact absurd henc (hfresh e (List.mem_of_getElem? he))
          · exact heq.symm
          · rw [List.getElem?_eq_none (by rw [List.length_append]; exact hgt)] at he
            cases he
      · rw [if_neg hb, h.indexed]
        refine exists_congr fun e ↦ and_congr_left fun henc ↦ ?_
        rcases lt_or_ge i g.entries.length with hlt | hge
        · rw [List.getElem?_append_left hlt]
        · rw [List.getElem?_eq_none hge, List.getElem?_append_right hge]
          refine ⟨fun h ↦ (nomatch h), fun he ↦ absurd ?_ hb⟩
          obtain rfl := List.mem_singleton.mp (List.mem_of_getElem? he)
          exact henc.symm
    · simp only [htotal]
      rw [List.getElem?_append_right le_rfl, Nat.sub_self]
      rfl
    · rw [htotal]
      exact (List.mem_append.mp he).imp_right List.mem_singleton.mp

theorem total_concat (rows : List ρ) (r : ρ) (k : κ) :
    total encode start key add (rows ++ [r]) k =
      if encode (key r) = encode k then add (total encode start key add rows k) r
      else total encode start key add rows k := by
  unfold total
  rw [List.filter_append, List.foldl_append]
  by_cases h : encode (key r) = encode k <;> simp [h]

theorem Grouped.step (h : Grouped encode start key add rows g) (r : ρ)
    (hk : ∀ r' ∈ rows, encode (key r') = encode (key r) → key r' = key r) :
    Grouped encode start key add (rows ++ [r]) (step encode start key add g r) := by
  obtain ⟨hindexed, hplace, hsound, hcomplete⟩ := h.slot (key r) hk
  rw [Grouping.step]
  generalize Grouping.slot encode start g (key r) = s at hindexed hplace hsound hcomplete
  -- the entries afterwards: the one at the place changed, the others as before
  have hentries : ∀ j, (s.2.update s.1 (add · r)).entries[j]? =
      (s.2.entries[j]?).map fun e ↦ if s.1 = j then (e.1, add e.2 r) else e := by
    intro j
    rw [Groups.update, List.getElem?_modify]
    by_cases hj : s.1 = j <;> simp [hj, Prod.map]
  refine ⟨fun b j ↦ ?_, fun e he ↦ ?_, fun r' hr' ↦ ?_⟩
  · change s.2.index.get? b = some j ↔ _
    rw [hindexed, hentries]
    constructor
    · rintro ⟨e, he, henc⟩
      rw [he]
      exact ⟨_, rfl, by split <;> exact henc⟩
    · rintro ⟨e, he, henc⟩
      obtain ⟨d, hd, rfl⟩ := Option.map_eq_some_iff.mp he
      exact ⟨d, hd, by rw [← henc]; split <;> rfl⟩
  · obtain ⟨j, hj⟩ := List.mem_iff_getElem?.mp he
    rw [hentries] at hj
    obtain ⟨d, hd, rfl⟩ := Option.map_eq_some_iff.mp hj
    by_cases hplace' : s.1 = j
    · subst hplace'
      obtain rfl := Option.some.inj (hplace.symm.trans hd)
      rw [if_pos rfl]
      refine ⟨by simp, ?_⟩
      rw [total_concat, if_pos rfl]
    · have hne : encode (key r) ≠ encode d.1 := fun heq ↦
        hplace' (hindexed.eq_place hplace hd heq)
      rw [if_neg hplace', total_concat, if_neg hne]
      rcases hsound d (List.mem_of_getElem? hd) with hmem | rfl
      · obtain ⟨hkey, hstate⟩ := h.sound d hmem
        exact ⟨by rw [List.map_append]; exact List.mem_append_left _ hkey, hstate⟩
      · exact absurd rfl hne
  · have hkeys : (s.2.update s.1 (add · r)).entries.map Prod.fst = s.2.entries.map Prod.fst := by
      refine List.ext_getElem? fun j ↦ ?_
      rw [List.getElem?_map, List.getElem?_map, hentries, Option.map_map]
      exact congrArg (fun f ↦ Option.map f _) (funext fun e ↦ by
        rw [Function.comp_apply]
        split <;> rfl)
    rw [hkeys]
    rcases List.mem_append.mp hr' with hr' | hr'
    · obtain ⟨e, he, hkey⟩ := List.mem_map.mp (h.complete r' hr')
      exact List.mem_map.mpr ⟨e, hcomplete e he, hkey⟩
    · obtain rfl := List.mem_singleton.mp hr'
      exact List.mem_map.mpr ⟨_, List.mem_of_getElem? hplace, rfl⟩

/-- **All the rows**, from any groups. -/
theorem Grouped.foldl (h : Grouped encode start key add rows g) (rows' : List ρ)
    (hk : ∀ r ∈ rows ++ rows', ∀ r' ∈ rows ++ rows', encode (key r) = encode (key r') →
      key r = key r') :
    Grouped encode start key add (rows ++ rows')
      (rows'.foldl (Grouping.step encode start key add) g) := by
  induction rows' generalizing rows g with
  | nil => simpa using h
  | cons r rows' ih =>
    have hr : r ∈ rows ++ r :: rows' := List.mem_append_right _ List.mem_cons_self
    rw [List.append_cons] at hk ⊢
    exact ih (h.step r fun r' hr' ↦ hk r' (by simp [hr']) r (by simp)) hk

/-! ## The first row of each key -/

/-- The rows whose key was not seen before them. -/
def keepFirst {κ ρ : Type} [DecidableEq κ] (key : ρ → κ) : List κ → List ρ → List ρ
  | _, [] => []
  | seen, r :: rows =>
    if key r ∈ seen then keepFirst key seen rows else r :: keepFirst key (key r :: seen) rows

section KeepFirst

variable {κ ρ : Type} [DecidableEq κ] {key : ρ → κ} {seen : List κ} {rows : List ρ}

theorem keepFirst_sublist : (keepFirst key seen rows).Sublist rows := by
  induction rows generalizing seen with
  | nil => exact .slnil
  | cons r rows ih =>
    rw [keepFirst]
    split
    · exact ih.cons _
    · exact ih.cons_cons _

theorem keepFirst_nodup :
    ((keepFirst key seen rows).map key).Nodup ∧ ∀ r ∈ keepFirst key seen rows, key r ∉ seen := by
  induction rows generalizing seen with
  | nil => simp [keepFirst]
  | cons r rows ih =>
    rw [keepFirst]
    split_ifs with hr
    · exact ih
    · obtain ⟨hnodup, hnot⟩ := @ih (key r :: seen)
      rw [List.map_cons, List.nodup_cons, List.mem_map]
      refine ⟨⟨?_, hnodup⟩, fun r' hr' ↦ ?_⟩
      · rintro ⟨r', hr', heq⟩
        exact hnot r' hr' (heq ▸ List.mem_cons_self)
      · rcases List.mem_cons.mp hr' with rfl | hr'
        · exact hr
        · exact fun h ↦ hnot r' hr' (List.mem_cons_of_mem _ h)

theorem exists_keepFirst {r : ρ} (hr : r ∈ rows) (hseen : key r ∉ seen) :
    ∃ r' ∈ keepFirst key seen rows, key r' = key r := by
  induction rows generalizing seen with
  | nil => cases hr
  | cons q rows ih =>
    rw [keepFirst]
    split_ifs with hq
    · rcases List.mem_cons.mp hr with rfl | hr
      · exact absurd hq hseen
      · exact ih hr hseen
    · by_cases heq : key r = key q
      · exact ⟨q, List.mem_cons_self, heq.symm⟩
      · rcases List.mem_cons.mp hr with rfl | hr
        · exact absurd rfl heq
        · obtain ⟨r', hr', hkey⟩ := @ih (key q :: seen) hr (by simp [heq, hseen])
          exact ⟨r', List.mem_cons_of_mem _ hr', hkey⟩

/-- When a row is the only one of its key, all the rows are kept. -/
theorem mem_keepFirst (hinj : ∀ r ∈ rows, ∀ r' ∈ rows, key r = key r' → r = r') {r : ρ} :
    r ∈ keepFirst key [] rows ↔ r ∈ rows := by
  refine ⟨fun h ↦ keepFirst_sublist.subset h, fun h ↦ ?_⟩
  obtain ⟨r', hr', hkey⟩ : ∃ r' ∈ keepFirst key [] rows, key r' = key r :=
    exists_keepFirst h List.not_mem_nil
  obtain rfl := hinj r' (keepFirst_sublist.subset hr') r h hkey
  exact hr'

end KeepFirst

end Grouping
