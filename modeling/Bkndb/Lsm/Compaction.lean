import Bkndb.Lsm.SstHolds

/-!
# The merge of sorted sources

`compaction.rs`: sources in ascending key order, newest first, are merged into one stream that keeps
the newest entry of each key and leaves out tombstones. Range scans, compaction and backup share it.
The source keeps the heads of the sources in a heap of keys and source numbers; here the heap is
read off the heads.

## Errors

A source may fail in the middle. The error is taken when the entry before it is consumed, and it
ends the stream there: entries of other sources above that key are not returned, since the failed
source might have held a newer version of them. `Covers` says up to which key a source can be
relied on, and `MergeOf` what the stream is to return.

## The proof

`Feed` is a source with the error it ends in. A merge over feeds is determined by the entries left
and the error noticed so far (`ofFeeds`), and consuming all entries with a key leads to another
such state (`Passes`). So the stream is computed key by key, ascending: `items_ofFeeds` is the
induction, and `MergeAfter` what is left of its statement behind a key.

## Main results

* `merged_feeds`: what the merge of any ascending sources yields, with errors.
* `merged_layers` and `merged_eq_range`: without errors it yields the map that the sources are the
  layers of.
-/

/-- A source: the entry parked while its key sits in the heap, and what is left to read. -/
structure MergeSource where
  head : Option SstEntry
  rest : List (Except BknError SstEntry)

structure MergeIter where
  sources : List MergeSource
  error : Option BknError

namespace MergeSource

/-- Pull the next entry, or the error there is in its place. -/
def advance (s : MergeSource) : MergeSource × Option BknError :=
  match s.rest with
  | .ok e :: rest => (⟨some e, rest⟩, none)
  | .error e :: rest => (⟨none, rest⟩, some e)
  | [] => (⟨none, []⟩, none)

/-- Entries not yet handed out. -/
def size (s : MergeSource) : ℕ := s.head.toList.length + s.rest.length

/-- The least head of the sources, and which source it is in: among equal keys the first. -/
def least : List MergeSource → Option (SstEntry × ℕ)
  | [] => none
  | s :: ss =>
    match s.head, least ss with
    | none, r => r.map fun r ↦ (r.1, r.2 + 1)
    | some e, none => some (e, 0)
    | some e, some (e', i) => if e'.1 < e.1 then some (e', i + 1) else some (e, 0)

end MergeSource

namespace MergeIter

open Layers

/-- Pull the next entry of source `i`; of several errors the first is kept. -/
def advance (m : MergeIter) (i : ℕ) : MergeIter where
  sources := m.sources.modify i fun s ↦ s.advance.1
  error := m.error.or (m.sources[i]?.bind fun s ↦ s.advance.2)

def new (sources : List (List (Except BknError SstEntry))) : MergeIter :=
  (List.range sources.length).foldl advance ⟨sources.map fun s ↦ ⟨none, s⟩, none⟩

def size (m : MergeIter) : ℕ := (m.sources.map MergeSource.size).sum

/-- Older versions of a key: consume and discard. -/
def skip (key : Bytes) : ℕ → MergeIter → MergeIter
  | 0, m => m
  | fuel + 1, m =>
    match MergeSource.least m.sources with
    | some (e, i) => if e.1 = key then skip key fuel (m.advance i) else m
    | none => m

/-- What the merge yields: live values, and the first error there is. -/
def items : ℕ → MergeIter → List (Except BknError (Bytes × Bytes))
  | 0, _ => []
  | fuel + 1, m =>
    match m.error with
    | some e => [.error e]
    | none =>
      match MergeSource.least m.sources with
      | none => []
      | some (e, i) =>
        let m' := skip e.1 m.size (m.advance i)
        match e.2 with
        | .value v => .ok (e.1, v) :: items fuel m'
        | .tombstone => items fuel m'

/-- The stream over some sources. Each round takes at least one entry or the error. -/
def merged (sources : List (List (Except BknError SstEntry))) :
    List (Except BknError (Bytes × Bytes)) :=
  let m := new sources
  items (m.size + 1) m

end MergeIter

/-! ## Sources and the errors they end in -/

/-- A source: its entries, and the error it ends in if it fails. -/
structure Feed where
  entries : List SstEntry
  error : Option BknError

namespace Feed

/-- What the source yields. -/
def stream (f : Feed) : List (Except BknError SstEntry) :=
  f.entries.map .ok ++ f.error.toList.map .error

/-- The source when its first entry has been pulled; an error in its place is taken. -/
def opened (f : Feed) : Feed where
  entries := f.entries
  error := if f.entries = [] then none else f.error

/-- The error in the place of a first entry. -/
def opening (f : Feed) : Option BknError := if f.entries = [] then f.error else none

/-- The source without its first entry; an error that comes next is taken with it. -/
def tail (f : Feed) : Feed where
  entries := f.entries.tail
  error := if f.entries.tail = [] then none else f.error

/-- The error that is taken with the first entry. -/
def noticed (f : Feed) : Option BknError := if f.entries.tail = [] then f.error else none

theorem tail_cases (f : Feed) :
    (f.entries.tail = [] ∧ f.noticed = f.error ∧ f.tail.error = none) ∨
      f.entries.tail ≠ [] ∧ f.noticed = none ∧ f.tail.error = f.error := by
  by_cases h : f.entries.tail = []
  · exact .inl ⟨h, if_pos h, if_pos h⟩
  · exact .inr ⟨h, if_neg h, if_neg h⟩

end Feed

namespace MergeSource

/-- A source of which an entry has been pulled. -/
def ofFeed : Feed → MergeSource
  | ⟨[], _⟩ => ⟨none, []⟩
  | ⟨e :: l, error⟩ => ⟨some e, Feed.stream ⟨l, error⟩⟩

theorem ofFeed_head (f : Feed) : (ofFeed f).head = f.entries.head? := by
  obtain ⟨_ | ⟨e, l⟩, error⟩ := f <;> rfl

theorem advance_stream (f : Feed) (head : Option SstEntry) :
    advance ⟨head, f.stream⟩ = (ofFeed f.opened, f.opening) := by
  obtain ⟨_ | ⟨e, l⟩, _ | error⟩ := f <;> rfl

theorem advance_ofFeed {f : Feed} (h : f.entries ≠ []) :
    advance (ofFeed f) = (ofFeed f.tail, f.noticed) := by
  obtain ⟨_ | ⟨e, l⟩, error⟩ := f
  · exact absurd rfl h
  · exact advance_stream ⟨l, error⟩ (some e)

theorem length_le_size (f : Feed) : f.entries.length ≤ (ofFeed f).size := by
  obtain ⟨_ | ⟨e, l⟩, error⟩ := f
  · exact Nat.zero_le _
  · simp only [ofFeed, size, Feed.stream, Option.toList_some, List.length_cons, List.length_nil,
      List.length_append, List.length_map]
    omega

end MergeSource

namespace MergeIter

open Layers

/-- The merge with some sources left, and the error noticed so far. -/
def ofFeeds (fs : List Feed) (error : Option BknError) : MergeIter :=
  ⟨fs.map MergeSource.ofFeed, error⟩

/-- The entries of the sources, as layers. -/
def feedLayers (fs : List Feed) : List (List SstEntry) := fs.map Feed.entries

/-- The entries left. -/
def total (fs : List Feed) : ℕ := (fs.map fun f ↦ f.entries.length).sum

/-- An error is noticed with the last entry before it. -/
def Pulled (fs : List Feed) : Prop := ∀ f ∈ fs, f.error ≠ none → f.entries ≠ []

/-- No source fails before it could have held the key. -/
def Covers (fs : List Feed) (k : Bytes) : Prop :=
  ∀ f ∈ fs, f.error ≠ none → ∃ e ∈ f.entries, k ≤ e.1

theorem total_le_size (fs : List Feed) (error : Option BknError) :
    total fs ≤ (ofFeeds fs error).size := by
  rw [total, size, ofFeeds, List.map_map]
  exact List.sum_le_sum fun f _ ↦ MergeSource.length_le_size f

theorem advance_ofFeeds {fs : List Feed} {error : Option BknError} {i : ℕ} {f : Feed}
    (h : fs[i]? = some f) (hne : f.entries ≠ []) :
    advance (ofFeeds fs error) i = ofFeeds (fs.set i f.tail) (error.or f.noticed) := by
  have hget : (fs.map MergeSource.ofFeed)[i]? = some (MergeSource.ofFeed f) := by
    rw [List.getElem?_map, h]
    rfl
  rw [advance, ofFeeds, ofFeeds, hget, Option.bind_some, MergeSource.advance_ofFeed hne]
  congr 1
  refine List.ext_getElem? fun j ↦ ?_
  rw [List.getElem?_modify, List.getElem?_map, List.getElem?_map, List.getElem?_set]
  by_cases hj : i = j
  · subst hj
    have hlt : i < fs.length := (List.getElem?_eq_some_iff.mp h).1
    rw [h]
    simp [hlt, MergeSource.advance_ofFeed hne]
  · simp [hj]

theorem new_ofFeeds (fs : List Feed) :
    new (fs.map Feed.stream) = ofFeeds (fs.map Feed.opened) (fs.findSome? Feed.opening) := by
  -- the sources before the current one have been pulled, the others not
  have hind : ∀ n ≤ fs.length, (List.range n).foldl advance
      ⟨fs.map fun f ↦ (⟨none, f.stream⟩ : MergeSource), none⟩ =
        ⟨(fs.take n).map (fun f ↦ MergeSource.ofFeed f.opened) ++
          (fs.drop n).map fun f ↦ ⟨none, f.stream⟩, (fs.take n).findSome? Feed.opening⟩ := by
    intro n hn
    induction n with
    | zero => rfl
    | succ n ih =>
      rw [List.range_succ, List.foldl_append, ih (by omega), List.foldl_cons, List.foldl_nil, advance]
      have hlen : ((fs.take n).map fun f ↦ MergeSource.ofFeed f.opened).length = n := by
        rw [List.length_map, List.length_take_of_le (by omega)]
      rw [List.drop_eq_getElem_cons (by omega), List.map_cons, List.getElem?_append_right hlen.le, hlen,
        Nat.sub_self, List.getElem?_cons_zero, Option.bind_some, MergeSource.advance_stream,
        List.take_succ_eq_append_getElem (by omega), List.map_append, List.append_assoc,
        List.findSome?_append]
      congr 1
      · rw [List.modify_eq_take_drop, List.take_left' hlen, List.drop_left' hlen, List.modifyHead_cons,
          MergeSource.advance_stream]
        rfl
      · rw [List.findSome?_cons]
        cases fs[n].opening <;> rfl
  rw [new, List.length_map, List.map_map]
  have h := hind fs.length le_rfl
  rw [List.take_length, List.drop_length, List.map_nil, List.append_nil] at h
  rw [ofFeeds, List.map_map]
  exact h

/-! ## The least head

Among equal keys the first source counts, and sources stand newest first, so the least head is the
newest version of the least key. -/

theorem least_eq_none {fs : List Feed}
    (h : MergeSource.least (fs.map MergeSource.ofFeed) = none) : ∀ f ∈ fs, f.entries = [] := by
  induction fs with
  | nil => simp
  | cons f fs ih =>
    rw [List.map_cons, MergeSource.least, MergeSource.ofFeed_head] at h
    cases hf : f.entries with
    | nil =>
      rw [hf] at h
      exact List.forall_mem_cons.mpr ⟨hf, ih (Option.map_eq_none_iff.mp h)⟩
    | cons e l =>
      rw [hf, List.head?_cons] at h
      split at h
      · cases ‹some e = none›
      · cases h
      · split at h <;> cases h

/-- The least head is a least entry, and the newest for its key. -/
theorem least_eq_some {fs : List Feed} {e : SstEntry} {i : ℕ}
    (h : MergeSource.least (fs.map MergeSource.ofFeed) = some (e, i))
    (hsorted : ∀ f ∈ fs, Ascending f.entries) :
    (∃ f l, fs[i]? = some f ∧ f.entries = e :: l) ∧ lookup (feedLayers fs) e.1 = some e.2 ∧
      ∀ f ∈ fs, ∀ e' ∈ f.entries, e.1 ≤ e'.1 := by
  induction fs generalizing e i with
  | nil => cases h
  | cons f fs ih =>
    rw [List.map_cons, MergeSource.least, MergeSource.ofFeed_head] at h
    have hsorted' : ∀ f ∈ fs, Ascending f.entries := fun f hf ↦ hsorted f (List.mem_cons_of_mem _ hf)
    change _ ∧ lookup (f.entries :: feedLayers fs) e.1 = some e.2 ∧ _
    cases hf : f.entries with
    | nil =>
      rw [hf] at h
      obtain ⟨⟨e', i'⟩, hleast, heq⟩ := Option.map_eq_some_iff.mp h
      obtain ⟨rfl, rfl⟩ := Prod.mk.inj heq
      obtain ⟨⟨f', l, hl⟩, hlookup, hle⟩ := ih hleast hsorted'
      refine ⟨⟨f', l, hl⟩, ?_, List.forall_mem_cons.mpr ⟨by simp [hf], hle⟩⟩
      rw [lookup_nil_cons]
      exact hlookup
    | cons e₀ l =>
      have hasc := hsorted _ List.mem_cons_self
      rw [hf] at hasc h
      obtain ⟨hhead, -⟩ := List.pairwise_cons.mp hasc
      have hmin : ∀ e' ∈ f.entries, e₀.1 ≤ e'.1 := by
        rw [hf]
        exact List.forall_mem_cons.mpr ⟨le_rfl, fun e' he' ↦ (hhead e' he').le⟩
      rw [List.head?_cons] at h
      cases hrest : MergeSource.least (fs.map MergeSource.ofFeed) with
      | none =>
        rw [hrest] at h
        obtain ⟨rfl, rfl⟩ := Prod.mk.inj (Option.some.inj h)
        refine ⟨⟨f, l, rfl, hf⟩, by rw [lookup_cons, find_cons, if_pos rfl, Option.some_or], ?_⟩
        refine List.forall_mem_cons.mpr ⟨hmin, fun f' hf' ↦ ?_⟩
        rw [least_eq_none hrest f' hf']
        simp
      | some r =>
        obtain ⟨e₁, i₁⟩ := r
        obtain ⟨⟨f₁, l₁, hf₁⟩, hlookup, hle⟩ := ih hrest hsorted'
        rw [hrest] at h
        dsimp only at h
        split at h
        next hlt =>
          obtain ⟨rfl, rfl⟩ := Prod.mk.inj (Option.some.inj h)
          refine ⟨⟨f₁, l₁, hf₁⟩, ?_,
            List.forall_mem_cons.mpr ⟨fun e' he' ↦ hlt.le.trans (hmin e' he'), hle⟩⟩
          rw [lookup_cons, ← hf, find_eq_none fun e' he' ↦ (hlt.trans_le (hmin e' he')).ne',
            Option.none_or]
          exact hlookup
        next hge =>
          obtain ⟨rfl, rfl⟩ := Prod.mk.inj (Option.some.inj h)
          refine ⟨⟨f, l, rfl, hf⟩, by rw [lookup_cons, find_cons, if_pos rfl, Option.some_or], ?_⟩
          exact List.forall_mem_cons.mpr
            ⟨hmin, fun f' hf' e' he' ↦ (not_lt.mp hge).trans (hle f' hf' e' he')⟩

/-! ## Consuming

Every source has at most one entry with the key, at its front. Consuming it shortens the source and
may bring its error into view. -/

theorem total_set {fs : List Feed} {i : ℕ} {f : Feed} (h : fs[i]? = some f) (hne : f.entries ≠ []) :
    total (fs.set i f.tail) + 1 = total fs := by
  induction fs generalizing i with
  | nil => cases h
  | cons f' fs ih =>
    cases i with
    | zero =>
      obtain rfl := Option.some.inj h
      have hpos := List.length_pos_iff.mpr hne
      simp only [total, List.set_cons_zero, List.map_cons, List.sum_cons, Feed.tail, List.length_tail]
      omega
    | succ i =>
      have hset := ih h
      simp only [total, List.set_cons_succ, List.map_cons, List.sum_cons] at hset ⊢
      omega

theorem lookup_set {fs : List Feed} {i : ℕ} {f : Feed} {e : SstEntry} {l : List SstEntry}
    (h : fs[i]? = some f) (hf : f.entries = e :: l) {k : Bytes} (hk : k ≠ e.1) :
    lookup (feedLayers (fs.set i f.tail)) k = lookup (feedLayers fs) k := by
  induction fs generalizing i with
  | nil => cases h
  | cons f' fs ih =>
    cases i with
    | zero =>
      obtain rfl := Option.some.inj h
      rw [List.set_cons_zero, feedLayers, feedLayers, List.map_cons, List.map_cons, lookup_cons,
        lookup_cons, Feed.tail, hf, List.tail_cons, find_cons, if_neg (Ne.symm hk)]
    | succ i =>
      rw [List.set_cons_succ, feedLayers, feedLayers, List.map_cons, List.map_cons, lookup_cons,
        lookup_cons]
      exact congrArg _ (ih h)

/-- **What consuming entries with a key does** to the sources and the noticed error. -/
structure Passes (key : Bytes) (fs : List Feed) (error : Option BknError) (fs' : List Feed)
    (error' : Option BknError) : Prop where
  ascending : ∀ f ∈ fs', Ascending f.entries
  above : ∀ f ∈ fs', ∀ e ∈ f.entries, key ≤ e.1
  pulled : Pulled fs'
  lookup : ∀ k ≠ key, lookup (feedLayers fs') k = lookup (feedLayers fs) k
  total : total fs' ≤ total fs
  covers : ∀ k, key < k → (error = none ∧ Covers fs k ↔ error' = none ∧ Covers fs' k)
  errors : ∀ x, (error' = some x ∨ ∃ f ∈ fs', f.error = some x) →
    error = some x ∨ ∃ f ∈ fs, f.error = some x
  kept : error' = none → (∀ f ∈ fs', f.error = none) → error = none ∧ ∀ f ∈ fs, f.error = none

theorem Passes.trans {key : Bytes} {fs fs' fs'' : List Feed} {error error' error'' : Option BknError}
    (h : Passes key fs error fs' error') (h' : Passes key fs' error' fs'' error'') :
    Passes key fs error fs'' error'' where
  ascending := h'.ascending
  above := h'.above
  pulled := h'.pulled
  lookup k hk := (h'.lookup k hk).trans (h.lookup k hk)
  total := h'.total.trans h.total
  covers k hk := (h.covers k hk).trans (h'.covers k hk)
  errors x hx := h.errors x (h'.errors x hx)
  kept herror hnone := (h'.kept herror hnone).elim h.kept

theorem mem_set_or_eq {fs : List Feed} {i : ℕ} {f : Feed} (h : fs[i]? = some f) (f' : Feed) {f₀ : Feed}
    (hmem : f₀ ∈ fs) : f₀ ∈ fs.set i f' ∨ f₀ = f := by
  obtain ⟨j, hj⟩ := List.mem_iff_getElem?.mp hmem
  by_cases hij : i = j
  · subst hij
    exact .inr (Option.some.inj (hj.symm.trans h))
  · left
    refine List.mem_iff_getElem?.mpr ⟨j, ?_⟩
    rw [List.getElem?_set_ne hij, hj]

section

variable {key : Bytes} {fs : List Feed} {error : Option BknError} {i : ℕ} {f : Feed} {e : SstEntry}
  {l : List SstEntry}

/-- Consuming an entry changes nothing for the keys above: where its source fails next, it does not
cover them, before or after. -/
theorem covers_set (h : fs[i]? = some f) (hf : f.entries = e :: l) {k : Bytes} (hk : e.1 < k) :
    error = none ∧ Covers fs k ↔ error.or f.noticed = none ∧ Covers (fs.set i f.tail) k := by
  have hmem := List.mem_of_getElem? h
  have hset : f.tail ∈ fs.set i f.tail := List.mem_set (List.getElem?_eq_some_iff.mp h).1 _
  have htail : f.tail.entries = l := by rw [Feed.tail, hf, List.tail_cons]
  rcases f.tail_cases with ⟨hl, hnoticed, hnone⟩ | ⟨-, hnoticed, hsame⟩
  · rw [hf, List.tail_cons] at hl
    rw [hnoticed]
    constructor
    · rintro ⟨rfl, hcovers⟩
      have herror : f.error = none := by
        by_contra hne
        obtain ⟨e', he', hle⟩ := hcovers f hmem hne
        rw [hf, hl] at he'
        obtain rfl := List.mem_singleton.mp he'
        exact absurd hle (not_le.mpr hk)
      refine ⟨by rw [herror]; rfl, fun f' hf' hne ↦ ?_⟩
      rcases List.mem_or_eq_of_mem_set hf' with hf' | rfl
      · exact hcovers f' hf' hne
      · exact absurd hnone hne
    · rintro ⟨hor, hcovers⟩
      obtain ⟨rfl, herror⟩ := Option.or_eq_none_iff.mp hor
      refine ⟨rfl, fun f' hf' hne ↦ ?_⟩
      rcases mem_set_or_eq h f.tail hf' with hf' | rfl
      · exact hcovers f' hf' hne
      · exact absurd herror hne
  · have hiff : (∃ e' ∈ f.entries, k ≤ e'.1) ↔ ∃ e' ∈ f.tail.entries, k ≤ e'.1 := by
      rw [hf, htail, List.exists_mem_cons_iff]
      exact ⟨fun h ↦ h.resolve_left (not_le.mpr hk), .inr⟩
    rw [hnoticed, Option.or_none]
    refine and_congr_right fun _ ↦ ⟨fun hcovers f' hf' hne ↦ ?_, fun hcovers f' hf' hne ↦ ?_⟩
    · rcases List.mem_or_eq_of_mem_set hf' with hf' | rfl
      · exact hcovers f' hf' hne
      · exact hiff.mp (hcovers f hmem (hsame ▸ hne))
    · rcases mem_set_or_eq h f.tail hf' with hf' | rfl
      · exact hcovers f' hf' hne
      · exact hiff.mpr (hcovers f'.tail hset (hsame.symm ▸ hne))

theorem errors_set (h : fs[i]? = some f) {x : BknError}
    (hx : error.or f.noticed = some x ∨ ∃ f' ∈ fs.set i f.tail, f'.error = some x) :
    error = some x ∨ ∃ f ∈ fs, f.error = some x := by
  have hmem := List.mem_of_getElem? h
  rcases hx with hx | ⟨f', hf', hx⟩
  · rcases Option.or_eq_some_iff.mp hx with hx | ⟨-, hx⟩
    · exact .inl hx
    · rcases f.tail_cases with ⟨-, hnoticed, -⟩ | ⟨-, hnoticed, -⟩
      · exact .inr ⟨f, hmem, hnoticed ▸ hx⟩
      · rw [hnoticed] at hx
        cases hx
  · rcases List.mem_or_eq_of_mem_set hf' with hf' | rfl
    · exact .inr ⟨f', hf', hx⟩
    · rcases f.tail_cases with ⟨-, -, hnone⟩ | ⟨-, -, hsame⟩
      · rw [hnone] at hx
        cases hx
      · exact .inr ⟨f, hmem, hsame ▸ hx⟩

theorem error_eq_none_of_set (h : fs[i]? = some f) (hnoticed : f.noticed = none)
    (hnone : ∀ f' ∈ fs.set i f.tail, f'.error = none) : ∀ f ∈ fs, f.error = none := by
  intro f' hf'
  rcases mem_set_or_eq h f.tail hf' with hf' | rfl
  · exact hnone f' hf'
  · rcases f'.tail_cases with ⟨-, hsame, -⟩ | ⟨-, -, hsame⟩
    · exact hsame.symm.trans hnoticed
    · exact hsame.symm.trans (hnone f'.tail (List.mem_set (List.getElem?_eq_some_iff.mp h).1 _))

theorem passes_set (hasc : ∀ f ∈ fs, Ascending f.entries)
    (habove : ∀ f ∈ fs, ∀ e ∈ f.entries, key ≤ e.1) (hpulled : Pulled fs) (h : fs[i]? = some f)
    (hf : f.entries = e :: l) (hkey : e.1 = key) :
    Passes key fs error (fs.set i f.tail) (error.or f.noticed) := by
  have hmem := List.mem_of_getElem? h
  have htail : f.tail.entries = l := by rw [Feed.tail, hf, List.tail_cons]
  subst hkey
  refine ⟨fun f' hf' ↦ ?_, fun f' hf' ↦ ?_, fun f' hf' herror ↦ ?_, fun k hk ↦ lookup_set h hf hk, ?_,
    fun k hk ↦ covers_set h hf hk, fun x hx ↦ errors_set h hx, fun hor hnone ↦ ?_⟩
  · rcases List.mem_or_eq_of_mem_set hf' with hf' | rfl
    · exact hasc f' hf'
    · have hall := hasc f hmem
      rw [hf] at hall
      rw [htail]
      exact (List.pairwise_cons.mp hall).2
  · rcases List.mem_or_eq_of_mem_set hf' with hf' | rfl
    · exact habove f' hf'
    · have hall := habove f hmem
      rw [hf] at hall
      rw [htail]
      exact (List.forall_mem_cons.mp hall).2
  · rcases List.mem_or_eq_of_mem_set hf' with hf' | rfl
    · exact hpulled f' hf' herror
    · exact fun hnil ↦ herror (if_pos hnil)
  · have htotal := @total_set _ i f h (by rw [hf]; exact List.cons_ne_nil _ _)
    omega
  · obtain ⟨herror, hnoticed⟩ := Option.or_eq_none_iff.mp hor
    exact ⟨herror, error_eq_none_of_set h hnoticed hnone⟩

end

/-- Skipping a key consumes all entries with it. -/
theorem skip_ofFeeds {key : Bytes} {fuel : ℕ} {fs : List Feed} {error : Option BknError}
    (hfuel : total fs ≤ fuel) (hasc : ∀ f ∈ fs, Ascending f.entries)
    (habove : ∀ f ∈ fs, ∀ e ∈ f.entries, key ≤ e.1) (hpulled : Pulled fs) :
    ∃ fs' error', skip key fuel (ofFeeds fs error) = ofFeeds fs' error' ∧
      Passes key fs error fs' error' ∧ ∀ f ∈ fs', ∀ e ∈ f.entries, key < e.1 := by
  have hrefl : Passes key fs error fs error :=
    ⟨hasc, habove, hpulled, fun _ _ ↦ rfl, le_rfl, fun _ _ ↦ Iff.rfl, fun _ h ↦ h, fun h h' ↦ ⟨h, h'⟩⟩
  induction fuel generalizing fs error with
  | zero =>
    refine ⟨fs, error, rfl, hrefl, fun f hf e he ↦ ?_⟩
    have hlen : f.entries.length ≤ total fs := List.le_sum_of_mem (List.mem_map_of_mem hf)
    rw [List.length_eq_zero_iff.mp (Nat.le_zero.mp (hlen.trans hfuel))] at he
    cases he
  | succ fuel ih =>
    rw [skip]
    change ∃ fs' error', (match MergeSource.least (fs.map MergeSource.ofFeed) with
      | some (e, i) => if e.1 = key then skip key fuel ((ofFeeds fs error).advance i)
        else ofFeeds fs error
      | none => ofFeeds fs error) = _ ∧ _
    cases hleast : MergeSource.least (fs.map MergeSource.ofFeed) with
    | none =>
      refine ⟨fs, error, rfl, hrefl, fun f hf e he ↦ ?_⟩
      rw [least_eq_none hleast f hf] at he
      cases he
    | some r =>
      obtain ⟨e, i⟩ := r
      obtain ⟨⟨f, l, hf, hl⟩, -, hmin⟩ := least_eq_some hleast hasc
      have hne : f.entries ≠ [] := by rw [hl]; exact List.cons_ne_nil _ _
      dsimp only
      split
      next hkey =>
        have hstep := @passes_set key fs error i f e l hasc habove hpulled hf hl hkey
        have htotal := total_set hf hne
        obtain ⟨fs', error', hskip, hpasses, hlt⟩ := @ih (fs.set i f.tail) (error.or f.noticed)
          (by omega) hstep.ascending hstep.above hstep.pulled ⟨hstep.ascending, hstep.above,
            hstep.pulled, fun _ _ ↦ rfl, le_rfl, fun _ _ ↦ Iff.rfl, fun _ h ↦ h, fun h h' ↦ ⟨h, h'⟩⟩
        exact ⟨fs', error', by rw [advance_ofFeeds hf hne, hskip], hstep.trans hpasses, hlt⟩
      next hkey =>
        have hlt : key < e.1 := by
          refine lt_of_le_of_ne (habove f (List.mem_of_getElem? hf) e ?_) (Ne.symm hkey)
          rw [hl]
          exact List.mem_cons_self
        exact ⟨fs, error, rfl, hrefl, fun f' hf' e' he' ↦ hlt.trans_le (hmin f' hf' e' he')⟩

/-- The merge of some sources: for each key, ascending, the newest value if it is live, as far as no
source has failed before the key; then the error of a source that fails, if there is one. -/
structure MergeOf (fs : List Feed) (out : List (Bytes × Bytes)) (error : Option BknError) : Prop where
  ascending : out.Pairwise fun e e' ↦ e.1 < e'.1
  mem : ∀ k v, (k, v) ∈ out ↔ lookup (feedLayers fs) k = some (.value v) ∧ Covers fs k
  error_iff : error = none ↔ ∀ f ∈ fs, f.error = none
  error_mem : ∀ x, error = some x → ∃ f ∈ fs, f.error = some x

/-- What the merge yields behind a key. -/
structure MergeAfter (key : Bytes) (fs : List Feed) (out : List (Bytes × Bytes))
    (error : Option BknError) : Prop where
  ascending : out.Pairwise fun e e' ↦ e.1 < e'.1
  mem : ∀ k v, (k, v) ∈ out ↔ key < k ∧ lookup (feedLayers fs) k = some (.value v) ∧ Covers fs k
  error_iff : error = none ↔ ∀ f ∈ fs, f.error = none
  error_mem : ∀ x, error = some x → ∃ f ∈ fs, f.error = some x

section

variable {key : Bytes} {fs fs' : List Feed} {out : List (Bytes × Bytes)} {error : Option BknError}

/-- An error that came with the key ends the merge. -/
theorem Passes.mergeAfter_error {x : BknError} (h : Passes key fs none fs' (some x)) :
    MergeAfter key fs [] (some x) := by
  have hsource : ∃ f ∈ fs, f.error = some x := (h.errors x (.inl rfl)).resolve_left (by simp)
  refine ⟨.nil, fun k v ↦ iff_of_false (by simp) ?_, iff_of_false (by simp) fun hnone ↦ ?_, ?_⟩
  · rintro ⟨hk, -, hcovers⟩
    cases ((h.covers k hk).mp ⟨rfl, hcovers⟩).1
  · obtain ⟨f, hf, hx⟩ := hsource
    rw [hnone f hf] at hx
    cases hx
  · rintro _ ⟨⟩
    exact hsource

/-- Without one, the merge of what is left is what comes behind the key. -/
theorem Passes.mergeAfter (h : Passes key fs none fs' none)
    (hlt : ∀ f ∈ fs', ∀ e ∈ f.entries, key < e.1) (hmerge : MergeOf fs' out error) :
    MergeAfter key fs out error := by
  refine ⟨hmerge.ascending, fun k v ↦ ?_, ?_, fun x hx ↦ ?_⟩
  · rw [hmerge.mem]
    constructor
    · rintro ⟨hvalue, hcovers⟩
      have hk : key < k := by
        obtain ⟨l, hl, hmem⟩ := exists_mem_of_lookup hvalue
        obtain ⟨f, hf, rfl⟩ := List.mem_map.mp hl
        exact hlt f hf _ hmem
      exact ⟨hk, (h.lookup k hk.ne') ▸ hvalue, ((h.covers k hk).mpr ⟨rfl, hcovers⟩).2⟩
    · rintro ⟨hk, hvalue, hcovers⟩
      exact ⟨(h.lookup k hk.ne').symm ▸ hvalue, ((h.covers k hk).mp ⟨rfl, hcovers⟩).2⟩
  · rw [hmerge.error_iff]
    refine ⟨fun hnone ↦ (h.kept rfl hnone).2, fun hnone f hf ↦ ?_⟩
    by_contra hne
    obtain ⟨x, hx⟩ := Option.ne_none_iff_exists'.mp hne
    obtain ⟨f₀, hf₀, hx₀⟩ := (h.errors x (.inr ⟨f, hf, hx⟩)).resolve_left (by simp)
    rw [hnone f₀ hf₀] at hx₀
    cases hx₀
  · obtain ⟨f, hf, hx'⟩ := hmerge.error_mem x hx
    exact (h.errors x (.inr ⟨f, hf, hx'⟩)).resolve_left (by simp)

theorem le_of_lookup (hmin : ∀ f ∈ fs, ∀ e ∈ f.entries, key ≤ e.1) {k : Bytes} {x : LsmValue}
    (h : lookup (feedLayers fs) k = some x) : key ≤ k := by
  obtain ⟨l, hl, hmem⟩ := exists_mem_of_lookup h
  obtain ⟨f, hf, rfl⟩ := List.mem_map.mp hl
  exact hmin f hf _ hmem

theorem MergeAfter.value {v : Bytes} (h : MergeAfter key fs out error)
    (hmin : ∀ f ∈ fs, ∀ e ∈ f.entries, key ≤ e.1)
    (hnewest : lookup (feedLayers fs) key = some (.value v)) (hcovers : Covers fs key) :
    MergeOf fs ((key, v) :: out) error := by
  refine ⟨List.pairwise_cons.mpr ⟨fun x hx ↦ ((h.mem x.1 x.2).mp hx).1, h.ascending⟩,
    fun k v' ↦ ?_, h.error_iff, h.error_mem⟩
  rw [List.mem_cons, h.mem, Prod.mk.injEq]
  by_cases hk : k = key
  · rw [hk, hnewest]
    simp [hcovers, eq_comm]
  · constructor
    · rintro (⟨rfl, -⟩ | h)
      · exact absurd rfl hk
      · exact h.2
    · exact fun h ↦ .inr ⟨lt_of_le_of_ne (le_of_lookup hmin h.1) (Ne.symm hk), h⟩

theorem MergeAfter.tombstone (h : MergeAfter key fs out error)
    (hmin : ∀ f ∈ fs, ∀ e ∈ f.entries, key ≤ e.1)
    (hnewest : lookup (feedLayers fs) key = some .tombstone) : MergeOf fs out error := by
  refine ⟨h.ascending, fun k v ↦ ?_, h.error_iff, h.error_mem⟩
  rw [h.mem]
  refine ⟨fun h ↦ h.2, fun h ↦ ⟨lt_of_le_of_ne (le_of_lookup hmin h.1) ?_, h⟩⟩
  rintro rfl
  rw [hnewest] at h
  cases h.1

end

/-- What the merge yields. -/
theorem items_ofFeeds {fuel : ℕ} {fs : List Feed} (hfuel : total fs < fuel)
    (hasc : ∀ f ∈ fs, Ascending f.entries) (hpulled : Pulled fs) :
    ∃ out error, items fuel (ofFeeds fs none) = out.map .ok ++ error.toList.map .error ∧
      MergeOf fs out error := by
  induction fuel generalizing fs with
  | zero => omega
  | succ fuel ih =>
    rw [items]
    change ∃ out error, (match MergeSource.least (fs.map MergeSource.ofFeed) with
      | none => []
      | some (e, i) =>
        let m' := skip e.1 (ofFeeds fs none).size ((ofFeeds fs none).advance i)
        match e.2 with
        | .value v => Except.ok (e.1, v) :: items fuel m'
        | .tombstone => items fuel m') = _ ∧ _
    cases hleast : MergeSource.least (fs.map MergeSource.ofFeed) with
    | none =>
      have hnil := least_eq_none hleast
      have hnone : ∀ f ∈ fs, f.error = none := fun f hf ↦ by
        by_contra herror
        exact hpulled f hf herror (hnil f hf)
      refine ⟨[], none, rfl, .nil, fun k v ↦ ?_, iff_of_true rfl hnone, by simp⟩
      rw [lookup_eq_none fun l hl e he ↦ by
        obtain ⟨f, hf, rfl⟩ := List.mem_map.mp hl
        rw [hnil f hf] at he
        cases he]
      simp
    | some r =>
      obtain ⟨e, i⟩ := r
      obtain ⟨⟨f, l, hf, hl⟩, hnewest, hmin⟩ := least_eq_some hleast hasc
      have hne : f.entries ≠ [] := by rw [hl]; exact List.cons_ne_nil _ _
      have hstep := @passes_set e.1 fs none i f e l hasc hmin hpulled hf hl rfl
      have htotal := total_set hf hne
      have hsize := total_le_size fs none
      obtain ⟨fs', error', hskip, hpasses, hlt⟩ :=
        @skip_ofFeeds e.1 (ofFeeds fs none).size (fs.set i f.tail)
          ((none : Option BknError).or f.noticed) (by omega) hstep.ascending hstep.above hstep.pulled
      have hall := hstep.trans hpasses
      have htotal' := hpasses.total
      -- what comes behind this key
      obtain ⟨out, error, hitems, hafter⟩ : ∃ (out : List (Bytes × Bytes)) (error : Option BknError),
          items fuel (ofFeeds fs' error') = out.map .ok ++ error.toList.map .error ∧
            MergeAfter e.1 fs out error := by
        cases herror : error' with
        | some x =>
          have hfuel' : fuel = fuel - 1 + 1 := by omega
          exact ⟨[], some x, by rw [hfuel']; rfl, (herror ▸ hall).mergeAfter_error⟩
        | none =>
          obtain ⟨out, error, hitems, hmerge⟩ := @ih fs' (by omega) hpasses.ascending hpasses.pulled
          exact ⟨out, error, hitems, (herror ▸ hall).mergeAfter hlt hmerge⟩
      dsimp only
      rw [advance_ofFeeds hf hne, hskip]
      cases hvalue : e.2 with
      | value v =>
        refine ⟨(e.1, v) :: out, error, by dsimp only; rw [hitems]; rfl,
          hafter.value hmin (hvalue ▸ hnewest) fun f' hf' herror ↦ ?_⟩
        obtain ⟨e', he'⟩ := List.exists_mem_of_ne_nil _ (hpulled f' hf' herror)
        exact ⟨e', he', hmin f' hf' e' he'⟩
      | tombstone => exact ⟨out, error, hitems, hafter.tombstone hmin (hvalue ▸ hnewest)⟩

/-- **The merge.** Over ascending sources it yields the newest live values, ascending, up to where a
source fails. -/
theorem merged_feeds {fs : List Feed} (hasc : ∀ f ∈ fs, Ascending f.entries) :
    ∃ out error, merged (fs.map Feed.stream) = out.map .ok ++ error.toList.map .error ∧
      MergeOf fs out error := by
  rw [merged, new_ofFeeds]
  cases hopening : fs.findSome? Feed.opening with
  | some x =>
    obtain ⟨f, hf, hx⟩ := List.exists_of_findSome?_eq_some hopening
    obtain ⟨hnil, hfails⟩ : f.entries = [] ∧ f.error = some x := by
      rw [Feed.opening] at hx
      split at hx
      · exact ⟨‹_›, hx⟩
      · cases hx
    refine ⟨[], some x, rfl, .nil, fun k v ↦ iff_of_false (by simp) ?_, iff_of_false (by simp) ?_, ?_⟩
    · rintro ⟨-, hcovers⟩
      obtain ⟨e, he, -⟩ := hcovers f hf (by rw [hfails]; simp)
      rw [hnil] at he
      cases he
    · intro hnone
      rw [hnone f hf] at hfails
      cases hfails
    · rintro _ ⟨⟩
      exact ⟨f, hf, hfails⟩
  | none =>
    have hopening' : ∀ f ∈ fs, f.entries = [] → f.error = none := fun f hf hnil ↦ by
      have h := List.findSome?_eq_none_iff.mp hopening f hf
      rwa [Feed.opening, if_pos hnil] at h
    have hopened : fs.map Feed.opened = fs := by
      conv_rhs => rw [← List.map_id fs]
      refine List.map_congr_left fun f hf ↦ ?_
      rw [Feed.opened]
      split
      next hnil => rw [← hopening' f hf hnil, id]
      next => rfl
    rw [hopened]
    exact items_ofFeeds (Nat.lt_succ_of_le (total_le_size fs none)) hasc fun f hf herror hnil ↦
      herror (hopening' f hf hnil)

/-- **Over ascending sources that do not fail, the merge yields the map of what is live in them.** -/
theorem merged_layers {ls : List (List SstEntry)} (hsorted : ∀ l ∈ ls, Ascending l) :
    ∃ E : OrdMap Bytes Bytes, merged (ls.map fun l ↦ l.map .ok) = E.entries.map .ok ∧
      Denotes LsmValue.live ls E := by
  have hfs : ∀ f ∈ ls.map fun l ↦ (⟨l, none⟩ : Feed), f.error = none := by simp
  obtain ⟨out, error, hmerged, hmerge⟩ :=
    @merged_feeds (ls.map fun l ↦ ⟨l, none⟩) (by simpa using hsorted)
  have hstreams : (ls.map fun l ↦ (⟨l, none⟩ : Feed)).map Feed.stream =
      ls.map fun l ↦ l.map .ok := by
    rw [List.map_map]
    exact List.map_congr_left fun l _ ↦ List.append_nil _
  have hlayers : feedLayers (ls.map fun l ↦ ⟨l, none⟩) = ls := by
    rw [feedLayers, List.map_map]
    exact List.map_id ls
  have hmem : ∀ k v, (k, v) ∈ out ↔ lookup ls k = some (.value v) := by
    intro k v
    rw [hmerge.mem, hlayers]
    exact and_iff_left fun f hf herror ↦ absurd (hfs f hf) herror
  have hitems : merged (ls.map fun l ↦ l.map .ok) = out.map .ok := by
    rw [← hstreams, hmerged, hmerge.error_iff.mpr hfs]
    exact List.append_nil _
  refine ⟨⟨out, hmerge.ascending⟩, hitems, fun k ↦ ?_⟩
  refine Option.ext fun v ↦ ?_
  rw [← OrdMap.mem_entries, hmem]
  cases lookup ls k with
  | none => simp
  | some x => cases x <;> simp [LsmValue.live]

/-- Over ascending sources that hold the entries of a map within some bounds and do not fail, the
merge yields these entries. -/
theorem merged_eq_range {ls : List (List SstEntry)} {D : OrdMap Bytes Bytes} {lo hi : Bound Bytes}
    (hsorted : ∀ l ∈ ls, Ascending l)
    (hmem : ∀ k v, lookup ls k = some (.value v) ↔ D.get? k = some v ∧ lo.Above k ∧ hi.Below k) :
    merged (ls.map fun l ↦ l.map .ok) = (D.range lo hi).map .ok := by
  obtain ⟨E, hmerged, hdenotes⟩ := merged_layers hsorted
  rw [hmerged, OrdMap.eq_range E.sorted fun k v ↦ ?_]
  rw [OrdMap.mem_entries, hdenotes k, ← hmem]
  cases lookup ls k with
  | none => simp
  | some x => cases x <;> simp [LsmValue.live]

end MergeIter
