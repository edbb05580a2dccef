import Mathlib.Data.Prod.Lex
import Bkndb.Lsm.Compaction

/-!
# The merge and its heap

`compaction.rs` as it runs: the keys of the parked entries sit in a heap with the numbers of their
sources, and the stream is read call by call. It yields what the merge read off the heads yields,
and after an error or the end nothing more.

## Why twice

The merge in `Bkndb.Lsm.Compaction` reads the least head off the sources, and returns a list of
items. The source keeps a heap, and returns one item per call. The two are connected by `Shows`:
the heap holds exactly the heads, so what pops first is the least head, and a call does what a
round of the merge does.

## Main results

* `Shows.calls`: the calls return the items of the merge, and then `None` forever.
* `calls_new`: so over ascending sources, some of which may fail anywhere, they return the newest
  values in order, up to the first place where a failed source could have held a newer version.
-/

/-- The stream, between two calls. -/
structure HeapIter where
  sources : List (List (Except BknError SstEntry))
  /-- The next unconsumed value of each source, parked here while its key sits in `heap`. -/
  heads : List (Option LsmValue)
  /-- Popped by key, then by source number: among equal keys the newest source comes first. -/
  heap : List (Lex (Bytes × ℕ))
  error : Option BknError

namespace HeapIter

open MergeIter

/-- Pull source `i`'s next entry into the heap, or record its error. -/
def advance (m : HeapIter) (i : ℕ) : HeapIter :=
  match m.sources[i]? with
  | some (.ok (key, value) :: rest) =>
    { m with
      sources := m.sources.set i rest
      heads := m.heads.set i (some value)
      heap := toLex (key, i) :: m.heap }
  | some (.error e :: rest) => { m with sources := m.sources.set i rest, error := m.error.or (some e) }
  | some [] | none => m

def new (sources : List (List (Except BknError SstEntry))) : HeapIter :=
  (List.range sources.length).foldl advance ⟨sources, sources.map fun _ ↦ none, [], none⟩

/-- The entry of the heap that pops first. -/
def peek (m : HeapIter) : Option (Bytes × ℕ) := m.heap.min?.map ofLex

/-- The heap without an entry, and nothing parked for it any more. -/
def pop (m : HeapIter) (key : Bytes) (i : ℕ) : HeapIter :=
  { m with heap := m.heap.erase (toLex (key, i)), heads := m.heads.set i none }

/-- Entries not consumed yet. -/
def size (m : HeapIter) : ℕ := m.heap.length + (m.sources.map List.length).sum

theorem sum_length_set {α : Type*} {l : List (List α)} {i : ℕ} {x : α} {rest : List α}
    (h : l[i]? = some (x :: rest)) :
    ((l.set i rest).map List.length).sum + 1 = (l.map List.length).sum := by
  induction l generalizing i with
  | nil => cases h
  | cons y l ih =>
    cases i with
    | zero =>
      obtain rfl := Option.some.inj h
      simp only [List.set_cons_zero, List.map_cons, List.sum_cons, List.length_cons]
      omega
    | succ i =>
      have hset := ih h
      simp only [List.set_cons_succ, List.map_cons, List.sum_cons] at hset ⊢
      omega

theorem size_advance (m : HeapIter) (i : ℕ) : (m.advance i).size ≤ m.size := by
  rw [advance]
  split
  next key value rest h =>
    have hsum := sum_length_set h
    simp only [size, List.length_cons]
    omega
  next e rest h =>
    have hsum := sum_length_set h
    simp only [size]
    omega
  all_goals exact le_rfl

theorem size_pop {m : HeapIter} {key : Bytes} {i : ℕ} (h : m.peek = some (key, i)) :
    (m.pop key i).size < m.size := by
  obtain ⟨x, hx, hkey⟩ := Option.map_eq_some_iff.mp h
  have hmem : toLex (key, i) ∈ m.heap := hkey ▸ List.min?_mem hx
  have hlen := List.length_erase_of_mem hmem
  have hpos := List.length_pos_of_mem hmem
  simp only [size, pop]
  omega

/-- Older versions of the same key: consume and discard. -/
def discard (key : Bytes) (m : HeapIter) : HeapIter :=
  match _h : m.peek with
  | some (k, j) => if k ≠ key then m else discard key ((m.pop k j).advance j)
  | none => m
termination_by m.size
decreasing_by exact (size_advance _ _).trans_lt (size_pop ‹_›)

theorem discard_of_none {key : Bytes} {m : HeapIter} (h : m.peek = none) : discard key m = m := by
  rw [discard]
  split
  next heq => cases h.symm.trans heq
  next => rfl

theorem discard_of_some {key k : Bytes} {j : ℕ} {m : HeapIter} (h : m.peek = some (k, j)) :
    discard key m = if k ≠ key then m else discard key ((m.pop k j).advance j) := by
  rw [discard]
  split
  next heq =>
    obtain ⟨rfl, rfl⟩ := Prod.mk.inj (Option.some.inj (h.symm.trans heq))
    rfl
  next heq => cases h.symm.trans heq

theorem size_discard (key : Bytes) (m : HeapIter) : (m.discard key).size ≤ m.size := by
  induction m using discard.induct key with
  | case1 m k j h hne => rw [discard_of_some h, if_pos hne]
  | case2 m k j h hkey ih =>
    rw [discard_of_some h, if_neg hkey]
    exact (ih.trans (size_advance _ _)).trans (size_pop h).le
  | case3 m h => rw [discard_of_none h]

/-- One call: the next live value, or an error, after which the heap is empty. -/
def next (m : HeapIter) : Option (Except BknError (Bytes × Bytes)) × HeapIter :=
  match m.error with
  | some e => (some (.error e), { m with error := none, heap := [] })
  | none =>
    match _h : m.peek with
    | none => (none, m)
    | some (key, i) =>
      match (m.heads[i]?).join with
      | none => (some (.error (.panic "every heap entry has a parked value")), m.pop key i)
      | some value =>
        let m' := discard key ((m.pop key i).advance i)
        match value with
        | .value v => (some (.ok (key, v)), m')
        | .tombstone => next m'
termination_by m.size
decreasing_by exact ((size_discard _ _).trans (size_advance _ _)).trans_lt (size_pop ‹_›)

/-- What some calls return, one after the other. -/
def calls : ℕ → HeapIter → List (Option (Except BknError (Bytes × Bytes)))
  | 0, _ => []
  | n + 1, m => m.next.1 :: calls n m.next.2

theorem next_of_error {m : HeapIter} {e : BknError} (h : m.error = some e) :
    m.next = (some (.error e), { m with error := none, heap := [] }) := by
  rw [next]
  split
  next heq => rw [Option.some.inj (h.symm.trans heq)]
  next heq => cases h.symm.trans heq

theorem next_of_none {m : HeapIter} (herror : m.error = none) (h : m.peek = none) :
    m.next = (none, m) := by
  rw [next]
  split
  next heq => cases herror.symm.trans heq
  next =>
    split
    next => rfl
    next heq => cases h.symm.trans heq

theorem next_of_value {m : HeapIter} {key v : Bytes} {i : ℕ} (herror : m.error = none)
    (h : m.peek = some (key, i)) (hvalue : m.heads[i]? = some (some (.value v))) :
    m.next = (some (.ok (key, v)), discard key ((m.pop key i).advance i)) := by
  rw [next]
  split
  next heq => cases herror.symm.trans heq
  next =>
    split
    next heq => cases h.symm.trans heq
    next heq =>
      obtain ⟨rfl, rfl⟩ := Prod.mk.inj (Option.some.inj (h.symm.trans heq))
      rw [hvalue]
      rfl

theorem next_of_tombstone {m : HeapIter} {key : Bytes} {i : ℕ} (herror : m.error = none)
    (h : m.peek = some (key, i)) (hvalue : m.heads[i]? = some (some .tombstone)) :
    m.next = next (discard key ((m.pop key i).advance i)) := by
  conv_lhs => rw [next]
  split
  next heq => cases herror.symm.trans heq
  next =>
    split
    next heq => cases h.symm.trans heq
    next heq =>
      obtain ⟨rfl, rfl⟩ := Prod.mk.inj (Option.some.inj (h.symm.trans heq))
      rw [hvalue]
      rfl

/-! ## The heap and the heads -/

/-- The heap holds the heads of the sources. -/
structure Shows (h : HeapIter) (m : MergeIter) : Prop where
  sources : h.sources = m.sources.map MergeSource.rest
  parked : h.heads = m.sources.map fun s ↦ s.head.map Prod.snd
  nodup : h.heap.Nodup
  mem_heap : ∀ k i, toLex (k, i) ∈ h.heap ↔
    ∃ s v, m.sources[i]? = some s ∧ s.head = some (k, v)
  error : h.error = m.error

theorem modify_eq_set {α : Type*} {l : List α} {i : ℕ} {x : α} (h : l[i]? = some x) (f : α → α) :
    l.modify i f = l.set i (f x) := by
  obtain ⟨hlt, rfl⟩ := List.getElem?_eq_some_iff.mp h
  rw [List.modify_eq_take_cons_drop hlt, List.set_eq_take_append_cons_drop, if_pos hlt]

theorem set_eq_self {α : Type*} {l : List α} {i : ℕ} {x : α} (h : l[i]? = some x) : l.set i x = l := by
  obtain ⟨hlt, rfl⟩ := List.getElem?_eq_some_iff.mp h
  exact List.set_getElem_self hlt

theorem exists_head_set {l : List MergeSource} {i j : ℕ} {s : MergeSource} {k : Bytes}
    (h : i < l.length) :
    (∃ s' v, (l.set i s)[j]? = some s' ∧ s'.head = some (k, v)) ↔
      if i = j then ∃ v, s.head = some (k, v) else ∃ s' v, l[j]? = some s' ∧ s'.head = some (k, v) := by
  split
  next hij =>
    subst hij
    rw [List.getElem?_set_self h]
    simp
  next hij => rw [List.getElem?_set_ne hij]

theorem Shows.pop {h : HeapIter} {m : MergeIter} (hs : Shows h m) {i : ℕ} {s : MergeSource} {k : Bytes}
    {v : LsmValue} (hget : m.sources[i]? = some s) (hhead : s.head = some (k, v)) :
    Shows (h.pop k i) { m with sources := m.sources.set i ⟨none, s.rest⟩ } where
  sources := by
    rw [List.map_set, set_eq_self (by rw [List.getElem?_map, hget]; rfl)]
    exact hs.sources
  parked := by
    rw [List.map_set, HeapIter.pop, hs.parked]
    rfl
  nodup := hs.nodup.erase _
  mem_heap k' j := by
    rw [HeapIter.pop, hs.nodup.mem_erase_iff, hs.mem_heap,
      exists_head_set (List.getElem?_eq_some_iff.mp hget).1]
    split
    next hij =>
      subst hij
      rw [hget]
      refine iff_of_false ?_ (by simp)
      rintro ⟨hne, s', v', hs', hv'⟩
      obtain rfl := Option.some.inj hs'
      obtain ⟨rfl, -⟩ := Prod.mk.inj (Option.some.inj (hhead.symm.trans hv'))
      exact hne rfl
    next hij =>
      exact and_iff_right fun heq ↦ hij (Prod.mk.inj (toLex.injective heq)).2.symm
  error := hs.error

theorem Shows.advance {h : HeapIter} {m : MergeIter} (hs : Shows h m) {i : ℕ} {s : MergeSource}
    (hget : m.sources[i]? = some s) (hhead : s.head = none) : Shows (h.advance i) (m.advance i) := by
  have hlt := (List.getElem?_eq_some_iff.mp hget).1
  have hsource : h.sources[i]? = some s.rest := by rw [hs.sources, List.getElem?_map, hget]; rfl
  have hparked : h.heads[i]? = some none := by
    rw [hs.parked, List.getElem?_map, hget, Option.map_some, hhead]
    rfl
  have hfresh : ∀ k, toLex (k, i) ∉ h.heap := fun k hk ↦ by
    obtain ⟨s', v, hs', hv⟩ := (hs.mem_heap k i).mp hk
    obtain rfl := Option.some.inj (hget.symm.trans hs')
    cases hhead.symm.trans hv
  rw [MergeIter.advance, hget, Option.bind_some, modify_eq_set hget, HeapIter.advance, hsource]
  obtain ⟨_, _ | ⟨⟨e⟩ | ⟨⟨k, v⟩⟩, rest⟩⟩ := s
  · obtain rfl := hhead
    rw [MergeSource.advance, set_eq_self hget, Option.or_none]
    exact hs
  · dsimp only
    refine ⟨?_, ?_, hs.nodup, fun k j ↦ ?_, ?_⟩
    · rw [List.map_set, ← hs.sources]
      rfl
    · rw [List.map_set, ← hs.parked]
      exact (set_eq_self hparked).symm
    · rw [exists_head_set hlt]
      split
      next hij =>
        subst hij
        exact iff_of_false (hfresh k) (by simp [MergeSource.advance])
      next => exact hs.mem_heap k j
    · rw [← hs.error]
      rfl
  · dsimp only
    refine ⟨?_, ?_, List.nodup_cons.mpr ⟨hfresh k, hs.nodup⟩, fun k' j ↦ ?_, ?_⟩
    · rw [List.map_set, ← hs.sources]
      rfl
    · rw [List.map_set, ← hs.parked]
      rfl
    · rw [exists_head_set hlt, List.mem_cons, toLex.injective.eq_iff, Prod.mk.injEq]
      split
      next hij =>
        subst hij
        simp [MergeSource.advance, hfresh, eq_comm]
      next hij =>
        rw [← hs.mem_heap]
        simp [Ne.symm hij]
    · rw [← hs.error]
      exact Option.or_none.symm

theorem Shows.pop_advance {h : HeapIter} {m : MergeIter} (hs : Shows h m) {i : ℕ} {s : MergeSource}
    {k : Bytes} {v : LsmValue} (hget : m.sources[i]? = some s) (hhead : s.head = some (k, v)) :
    Shows ((h.pop k i).advance i) (m.advance i) := by
  have hlt := (List.getElem?_eq_some_iff.mp hget).1
  have hadvance := (hs.pop hget hhead).advance (List.getElem?_set_self hlt) rfl
  -- pulling the next entry overwrites the head
  have hsame : ({ m with sources := m.sources.set i ⟨none, s.rest⟩ } : MergeIter).advance i =
      m.advance i := by
    rw [MergeIter.advance, MergeIter.advance, modify_eq_set (List.getElem?_set_self hlt),
      modify_eq_set hget, List.set_set, List.getElem?_set_self hlt, hget, Option.bind_some,
      Option.bind_some]
    rfl
  rwa [hsame] at hadvance

theorem shows_start (sources : List (List (Except BknError SstEntry))) :
    Shows ⟨sources, sources.map fun _ ↦ none, [], none⟩ ⟨sources.map fun s ↦ ⟨none, s⟩, none⟩ where
  sources := by
    rw [List.map_map]
    exact (List.map_id sources).symm
  parked := by
    rw [List.map_map]
    rfl
  nodup := List.nodup_nil
  mem_heap k i := by
    refine iff_of_false List.not_mem_nil ?_
    rintro ⟨s, v, hs, hv⟩
    rw [List.getElem?_map] at hs
    obtain ⟨l, -, rfl⟩ := Option.map_eq_some_iff.mp hs
    cases hv
  error := rfl

theorem shows_new (sources : List (List (Except BknError SstEntry))) :
    Shows (new sources) (MergeIter.new sources) := by
  -- the sources from `n` on have not been pulled
  have hind : ∀ n ≤ sources.length,
      Shows ((List.range n).foldl advance ⟨sources, sources.map fun _ ↦ none, [], none⟩)
        ((List.range n).foldl MergeIter.advance ⟨sources.map fun s ↦ ⟨none, s⟩, none⟩) ∧
      ∀ i, n ≤ i → ((List.range n).foldl MergeIter.advance
        ⟨sources.map fun s ↦ ⟨none, s⟩, none⟩).sources[i]? = sources[i]?.map fun s ↦ ⟨none, s⟩ := by
    intro n hn
    induction n with
    | zero => exact ⟨shows_start sources, fun i _ ↦ List.getElem?_map⟩
    | succ n ih =>
      obtain ⟨hs, hrest⟩ := ih (by omega)
      have hget := hrest n le_rfl
      rw [@List.getElem?_eq_getElem _ sources n (by omega), Option.map_some] at hget
      rw [List.range_succ, List.foldl_append, List.foldl_append, List.foldl_cons, List.foldl_cons,
        List.foldl_nil, List.foldl_nil]
      refine ⟨hs.advance hget rfl, fun i hi ↦ ?_⟩
      rw [MergeIter.advance]
      dsimp only
      rw [List.getElem?_modify, hrest i (by omega)]
      cases sources[i]? with
      | none => rfl
      | some s => simp [show n ≠ i by omega]
  exact (hind sources.length le_rfl).1

theorem least_of_forall {ss : List MergeSource} (h : ∀ s ∈ ss, s.head = none) :
    MergeSource.least ss = none := by
  induction ss with
  | nil => rfl
  | cons s ss ih =>
    obtain ⟨hs, hss⟩ := List.forall_mem_cons.mp h
    rw [MergeSource.least, hs, ih hss]
    rfl

theorem least_head {ss : List MergeSource} {e : SstEntry} {i : ℕ}
    (h : MergeSource.least ss = some (e, i)) : ∃ s, ss[i]? = some s ∧ s.head = some e := by
  induction ss generalizing e i with
  | nil => cases h
  | cons s ss ih =>
    rw [MergeSource.least] at h
    cases hhead : s.head with
    | none =>
      rw [hhead] at h
      obtain ⟨⟨e', i'⟩, hleast, heq⟩ := Option.map_eq_some_iff.mp h
      obtain ⟨rfl, rfl⟩ := Prod.mk.inj heq
      exact ih hleast
    | some e₀ =>
      rw [hhead] at h
      cases hleast : MergeSource.least ss with
      | none =>
        rw [hleast] at h
        obtain ⟨rfl, rfl⟩ := Prod.mk.inj (Option.some.inj h)
        exact ⟨s, rfl, hhead⟩
      | some r =>
        obtain ⟨e', i'⟩ := r
        rw [hleast] at h
        dsimp only at h
        split at h
        · obtain ⟨rfl, rfl⟩ := Prod.mk.inj (Option.some.inj h)
          exact ih hleast
        · obtain ⟨rfl, rfl⟩ := Prod.mk.inj (Option.some.inj h)
          exact ⟨s, rfl, hhead⟩

theorem least_of_min {ss : List MergeSource} {s : MergeSource} {e : SstEntry} {i : ℕ}
    (hget : ss[i]? = some s) (hhead : s.head = some e)
    (hmin : ∀ j s' e', ss[j]? = some s' → s'.head = some e' → toLex (e.1, i) ≤ toLex (e'.1, j)) :
    MergeSource.least ss = some (e, i) := by
  induction ss generalizing i with
  | nil => cases hget
  | cons s₀ ss ih =>
    cases i with
    | zero =>
      obtain rfl := Option.some.inj hget
      rw [MergeSource.least, hhead]
      cases hleast : MergeSource.least ss with
      | none => rfl
      | some r =>
        obtain ⟨e', j⟩ := r
        obtain ⟨s', hs', he'⟩ := least_head hleast
        have hle := Prod.Lex.toLex_le_toLex.mp (hmin (j + 1) s' e' hs' he')
        have hnot : ¬ e'.1 < e.1 := not_lt.mpr (hle.elim le_of_lt fun h ↦ h.1.le)
        dsimp only
        rw [if_neg hnot]
    | succ i =>
      have hleast := @ih i hget fun j s' e' hs' he' ↦ by
        have hle := Prod.Lex.toLex_le_toLex.mp (hmin (j + 1) s' e' hs' he')
        exact Prod.Lex.toLex_le_toLex.mpr (hle.imp_right fun h ↦ ⟨h.1, Nat.succ_le_succ_iff.mp h.2⟩)
      rw [MergeSource.least, hleast]
      cases hhead₀ : s₀.head with
      | none => rfl
      | some e₀ =>
        have hle := Prod.Lex.toLex_le_toLex.mp (hmin 0 s₀ e₀ rfl hhead₀)
        have hlt : e.1 < e₀.1 := hle.resolve_right fun h ↦ by simp at h
        dsimp only
        rw [if_pos hlt]

/-- What pops first is the least head. -/
theorem Shows.peek {h : HeapIter} {m : MergeIter} (hs : Shows h m) :
    h.peek = (MergeSource.least m.sources).map fun r ↦ (r.1.1, r.2) := by
  rw [HeapIter.peek]
  cases hmin : h.heap.min? with
  | none =>
    have hnil := List.min?_eq_none_iff.mp hmin
    rw [least_of_forall fun s hmem ↦ ?_]
    · rfl
    · by_contra hne
      obtain ⟨⟨k, v⟩, hhead⟩ := Option.ne_none_iff_exists'.mp hne
      obtain ⟨i, hi⟩ := List.mem_iff_getElem?.mp hmem
      have hin := (hs.mem_heap k i).mpr ⟨s, v, hi, hhead⟩
      rw [hnil] at hin
      cases hin
  | some x =>
    obtain ⟨hmem, hle⟩ := List.min?_eq_some_iff.mp hmin
    obtain ⟨s, v, hget, hhead⟩ := (hs.mem_heap (ofLex x).1 (ofLex x).2).mp hmem
    rw [least_of_min hget hhead fun j s' e' hs' he' ↦
      hle _ ((hs.mem_heap e'.1 j).mpr ⟨s', e'.2, hs', he'⟩)]
    rfl

theorem mergeIter_size_advance {m : MergeIter} {i : ℕ} {s : MergeSource} {e : SstEntry}
    (hget : m.sources[i]? = some s) (hhead : s.head = some e) : (m.advance i).size < m.size := by
  have hsize : s.advance.1.size < s.size := by
    obtain ⟨_, _ | ⟨_ | _, rest⟩⟩ := s <;> obtain rfl := hhead <;>
      simp only [MergeSource.advance, MergeSource.size, Option.toList_some, Option.toList_none,
        List.length_cons, List.length_nil] <;> omega
  rw [MergeIter.advance, modify_eq_set hget]
  obtain ⟨hlt, rfl⟩ := List.getElem?_eq_some_iff.mp hget
  rw [MergeIter.size, MergeIter.size, List.set_eq_take_append_cons_drop, if_pos hlt]
  conv_rhs => rw [← List.take_append_drop i m.sources, List.drop_eq_getElem_cons hlt]
  simp only [List.map_append, List.map_cons, List.sum_append, List.sum_cons]
  omega

theorem size_skip (key : Bytes) (fuel : ℕ) (m : MergeIter) :
    (MergeIter.skip key fuel m).size ≤ m.size := by
  induction fuel generalizing m with
  | zero => exact le_rfl
  | succ fuel ih =>
    rw [MergeIter.skip]
    cases hleast : MergeSource.least m.sources with
    | none => exact le_rfl
    | some r =>
      obtain ⟨e, i⟩ := r
      obtain ⟨s, hget, hhead⟩ := least_head hleast
      dsimp only
      split
      · exact (ih _).trans (mergeIter_size_advance hget hhead).le
      · exact le_rfl

theorem Shows.discard {h : HeapIter} {m : MergeIter} (hs : Shows h m) {key : Bytes} {fuel : ℕ}
    (hfuel : m.size ≤ fuel) : Shows (h.discard key) (MergeIter.skip key fuel m) := by
  induction fuel generalizing h m with
  | zero =>
    have hnone : MergeSource.least m.sources = none := by
      by_contra hne
      obtain ⟨⟨e, i⟩, hleast⟩ := Option.ne_none_iff_exists'.mp hne
      obtain ⟨s, hget, hhead⟩ := least_head hleast
      have hsize := mergeIter_size_advance hget hhead
      omega
    rw [discard_of_none (by rw [hs.peek, hnone]; rfl)]
    exact hs
  | succ fuel ih =>
    have hpeek := hs.peek
    rw [MergeIter.skip]
    cases hleast : MergeSource.least m.sources with
    | none =>
      rw [hleast] at hpeek
      rw [discard_of_none hpeek]
      exact hs
    | some r =>
      obtain ⟨⟨k, v⟩, i⟩ := r
      rw [hleast] at hpeek
      obtain ⟨s, hget, hhead⟩ := least_head hleast
      have hsize := mergeIter_size_advance hget hhead
      rw [discard_of_some hpeek]
      dsimp only
      by_cases hkey : k = key
      · rw [if_neg (not_not.mpr hkey), if_pos hkey]
        exact ih (hs.pop_advance hget hhead) (by omega)
      · rw [if_pos hkey, if_neg hkey]
        exact hs

/-! ## Calls

After an error, and after the end, the heap is empty and stays so. -/

/-- Nothing is left: every call returns `None`. -/
def Exhausted (h : HeapIter) : Prop := h.next = (none, h)

theorem calls_of_exhausted {h : HeapIter} (he : Exhausted h) (n : ℕ) :
    h.calls n = List.replicate n none := by
  induction n with
  | zero => rfl
  | succ n ih =>
    rw [calls, he, ih]
    rfl

/-- **One call** of the stream is one round of the merge, or more where tombstones are passed. -/
theorem Shows.next {fuel : ℕ} {h : HeapIter} {m : MergeIter} (hs : Shows h m) (hfuel : m.size < fuel) :
    (∃ h', items fuel m = [] ∧ h.next = (none, h') ∧ Exhausted h') ∨
    (∃ e h', items fuel m = [.error e] ∧ h.next = (some (.error e), h') ∧ Exhausted h') ∨
    ∃ x h' m' fuel', items fuel m = .ok x :: items fuel' m' ∧ h.next = (some (.ok x), h') ∧
      Shows h' m' ∧ m'.size < fuel' := by
  induction fuel generalizing h m with
  | zero => omega
  | succ fuel ih =>
    have hpeek := hs.peek
    cases herror : m.error with
    | some e =>
      have hnext := next_of_error (hs.error.trans herror)
      refine .inr (.inl ⟨e, _, ?_, hnext, next_of_none rfl rfl⟩)
      rw [items, herror]
    | none =>
      have herror' : h.error = none := hs.error.trans herror
      cases hleast : MergeSource.least m.sources with
      | none =>
        rw [hleast] at hpeek
        have hnext := next_of_none herror' hpeek
        refine .inl ⟨h, ?_, hnext, hnext⟩
        rw [items, herror, hleast]
      | some r =>
        obtain ⟨⟨k, v⟩, i⟩ := r
        rw [hleast] at hpeek
        obtain ⟨s, hget, hhead⟩ := least_head hleast
        have hsize := mergeIter_size_advance hget hhead
        have hparked : h.heads[i]? = some (some v) := by
          rw [hs.parked, List.getElem?_map, hget, Option.map_some, hhead]
          rfl
        have hdiscard := @Shows.discard _ _ (hs.pop_advance hget hhead) k _ hsize.le
        have hskip : (MergeIter.skip k m.size (m.advance i)).size < fuel :=
          (size_skip _ _ _).trans_lt (hsize.trans_le (Nat.lt_succ_iff.mp hfuel))
        cases v with
        | value v =>
          refine .inr (.inr ⟨(k, v), _, _, fuel, ?_, next_of_value herror' hpeek hparked, hdiscard,
            hskip⟩)
          rw [items, herror, hleast]
        | tombstone =>
          have hitems : items (fuel + 1) m = items fuel (MergeIter.skip k m.size (m.advance i)) := by
            rw [items, herror, hleast]
          have hnext := next_of_tombstone herror' hpeek hparked
          rw [hitems, hnext]
          exact ih hdiscard hskip

/-- The calls return the items of the merge, and `None` after them. -/
theorem Shows.calls {fuel : ℕ} {h : HeapIter} {m : MergeIter} (hs : Shows h m) (hfuel : m.size < fuel)
    (n : ℕ) : h.calls n = ((items fuel m).map some ++ List.replicate n none).take n := by
  induction n generalizing fuel h m with
  | zero => rfl
  | succ n ih =>
    rw [HeapIter.calls]
    rcases hs.next hfuel with ⟨h', hitems, hnext, hdone⟩ | ⟨e, h', hitems, hnext, hdone⟩ |
      ⟨x, h', m', fuel', hitems, hnext, hs', hfuel'⟩
    · rw [hitems, hnext, calls_of_exhausted hdone]
      simp [List.replicate_succ]
    · rw [hitems, hnext, calls_of_exhausted hdone]
      simp [List.take_replicate]
    · rw [hitems, hnext, ih hs' hfuel']
      simp [List.replicate_succ', ← List.append_assoc, List.take_append]

/-! ## What the stream returns -/

theorem prefix_of_mem_iff {live out : List (Bytes × Bytes)} {P : Bytes → Prop}
    (hlive : live.Pairwise fun e e' ↦ e.1 < e'.1) (hout : out.Pairwise fun e e' ↦ e.1 < e'.1)
    (hmem : ∀ x, x ∈ out ↔ x ∈ live ∧ P x.1) (hdown : ∀ k k', k < k' → P k' → P k) :
    out <+: live := by
  induction live generalizing out with
  | nil =>
    rw [List.eq_nil_iff_forall_not_mem.mpr fun x hx ↦ List.not_mem_nil ((hmem x).mp hx).1]
  | cons a live ih =>
    obtain ⟨habove, hlive'⟩ := List.pairwise_cons.mp hlive
    cases out with
    | nil => exact List.nil_prefix
    | cons b out =>
      obtain ⟨habove', hout'⟩ := List.pairwise_cons.mp hout
      obtain ⟨hb, hP⟩ := (hmem b).mp List.mem_cons_self
      -- the first of `live` is in `out`, and nothing of `out` is below it
      have hab : b = a := by
        rcases List.mem_cons.mp hb with hb | hb
        · exact hb
        · have ha := (hmem a).mpr ⟨List.mem_cons_self, hdown _ _ (habove b hb) hP⟩
          rcases List.mem_cons.mp ha with ha | ha
          · exact ha.symm
          · exact absurd (habove b hb) (habove' a ha).asymm
      subst hab
      refine (List.prefix_cons_inj _).mpr (ih hlive' hout' fun x ↦ ⟨fun hx ↦ ?_, fun hx ↦ ?_⟩)
      · obtain ⟨hmem', hP'⟩ := (hmem x).mp (List.mem_cons_of_mem _ hx)
        exact ⟨(List.mem_cons.mp hmem').resolve_left fun h ↦ (habove' x hx).ne (by rw [h]), hP'⟩
      · exact (List.mem_cons.mp ((hmem x).mpr ⟨List.mem_cons_of_mem _ hx.1, hx.2⟩)).resolve_left
          fun h ↦ (habove x hx.1).ne (by rw [h])

/-- **The stream.** Over ascending sources, newest first, the calls return the newest values of the
keys, tombstones left out, in ascending order, and `None` after them. If a source fails they return
those up to the last key of each source that fails, then one error, then `None`. -/
theorem calls_new {fs : List Feed} (hasc : ∀ f ∈ fs, Layers.Ascending f.entries) :
    ∃ live : List (Bytes × Bytes), live.Pairwise (fun e e' ↦ e.1 < e'.1) ∧
      (∀ k v, (k, v) ∈ live ↔ Layers.lookup (fs.map Feed.entries) k = some (.value v)) ∧
      ((∀ f ∈ fs, f.error = none) → ∀ n, calls n (new (fs.map Feed.stream)) =
        (live.map (fun x ↦ some (Except.ok x)) ++ List.replicate n none).take n) ∧
      ((∃ f ∈ fs, f.error ≠ none) → ∃ out e, out <+: live ∧
        (∀ k v, (k, v) ∈ out ↔
          (k, v) ∈ live ∧ ∀ f ∈ fs, f.error ≠ none → ∃ e ∈ f.entries, k ≤ e.1) ∧
        (∃ f ∈ fs, f.error = some e) ∧
        ∀ n, calls n (new (fs.map Feed.stream)) =
          (out.map (fun x ↦ some (Except.ok x)) ++
            some (Except.error e) :: List.replicate n none).take n) := by
  obtain ⟨live, _, -, hlive⟩ :=
    @merged_feeds (fs.map fun f ↦ ⟨f.entries, none⟩) (by simpa using hasc)
  obtain ⟨out, error, hmerged, hout⟩ := merged_feeds hasc
  have hlayers : feedLayers (fs.map fun f ↦ ⟨f.entries, none⟩) = fs.map Feed.entries := by
    rw [feedLayers, List.map_map]
    rfl
  have hmem : ∀ k v, (k, v) ∈ live ↔ Layers.lookup (fs.map Feed.entries) k = some (.value v) := by
    intro k v
    rw [hlive.mem, hlayers]
    exact and_iff_left (by simp [Covers])
  have hcalls : ∀ n, calls n (new (fs.map Feed.stream)) =
      ((merged (fs.map Feed.stream)).map some ++ List.replicate n none).take n := fun n ↦
    (shows_new _).calls (Nat.lt_succ_self _) n
  refine ⟨live, hlive.ascending, hmem, fun hnone n ↦ ?_, fun hfails ↦ ?_⟩
  · have hcovers : ∀ k, Covers fs k := fun k f hf herror ↦ absurd (hnone f hf) herror
    have hsame : out = live := by
      have hiff : ∀ x, x ∈ out ↔ x ∈ live ∧ Covers fs x.1 := fun x ↦ by
        rw [hout.mem, hmem]
        rfl
      have hprefix := prefix_of_mem_iff hlive.ascending hout.ascending hiff fun k _ _ _ ↦ hcovers k
      have hprefix' := @prefix_of_mem_iff out live (fun _ ↦ True) hout.ascending hlive.ascending
        (fun x ↦ by rw [hiff]; simp [hcovers]) fun _ _ _ h ↦ h
      exact hprefix.sublist.antisymm hprefix'.sublist
    rw [hcalls, hmerged, hout.error_iff.mpr hnone, hsame]
    simp [Function.comp_def]
  · obtain ⟨f, hf, herror⟩ := hfails
    obtain ⟨e, rfl⟩ := Option.ne_none_iff_exists'.mp fun h ↦ herror (hout.error_iff.mp h f hf)
    have hmem' : ∀ k v, (k, v) ∈ out ↔ (k, v) ∈ live ∧ Covers fs k := fun k v ↦ by
      rw [hout.mem, hmem]
      rfl
    refine ⟨out, e, ?_, hmem', hout.error_mem e rfl, fun n ↦ ?_⟩
    · refine prefix_of_mem_iff hlive.ascending hout.ascending (fun x ↦ hmem' x.1 x.2) ?_
      intro k k' hlt hcovers f hf herror
      obtain ⟨e', he', hle⟩ := hcovers f hf herror
      exact ⟨e', he', hlt.le.trans hle⟩
    · rw [hcalls, hmerged]
      simp [Function.comp_def]

/-- A newer source that fails after one entry, over one that goes on: nothing past that entry is
returned. -/
theorem calls_new_failing :
    let fs : List Feed := [⟨[([1], .value [2])], some .notFound⟩,
      ⟨[([1], .value [3]), ([2], .value [4])], none⟩]
    ∃ (out : List (Bytes × Bytes)) (e : BknError), (∀ k v, (k, v) ∈ out → k ≤ [1]) ∧
      ∀ n, calls n (new (fs.map Feed.stream)) =
      (out.map (fun x ↦ some (Except.ok x)) ++
        some (Except.error e) :: List.replicate n none).take n := by
  intro fs
  obtain ⟨live, -, -, -, hfails⟩ := @calls_new fs (by decide)
  obtain ⟨out, e, -, hmem, -, hcalls⟩ := hfails ⟨_, List.mem_cons_self, by simp⟩
  refine ⟨out, e, fun k v h ↦ ?_, hcalls⟩
  obtain ⟨e', he', hle⟩ := ((hmem k v).mp h).2 _ List.mem_cons_self (by simp)
  rwa [List.mem_singleton.mp he'] at hle

end HeapIter
