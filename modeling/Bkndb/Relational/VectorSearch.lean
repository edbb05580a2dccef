import Bkndb.Relational.Search
import Bkndb.Relational.VectorMirror

/-!
# Vector search

Answering a vector search from the index, widening it when a filter rejects too much
(`relational/ann/search.rs`), or by scanning the rows the filter selects
(`search_vector_in` of `relational/search/vector.rs`). Distances and scores are numbers of any linear
order; what the source computes them from is `Scoring.double`.

What is found through the graph is sound whatever the graph looks like: a search keeps distinct live
nodes, the closest ones it came across.

## When the index answers

The index answers a search unless it is asked for an exact one, or has none for the column, or the
filter rejects so much that scanning is the better plan. Then the rows that the filter selects are
scanned.

## Main results

* `searchLayer_kept`: a layer search returns distinct ids, nearest first, on any graph.
* `searchIn_sound`: what the index answers are distinct rows that pass the filter, with the scores
  of their vectors, best first; and where it does not answer, the search scans.

That the answers are the nearest rows is not claimed: the search through the graph is approximate.
-/

open PropValue

/-! ## Scores -/

namespace Ann

/-- How vectors are scored: the length of the query, and the score of a vector against it with how
good that is, higher being better; `none` for a vector that never matches. -/
structure Scoring (S : Type) where
  length : List F32 → S
  score : VectorMetric → List F32 → List F32 → S → Option (S × S)

/-- The square root of the sum of squares, in double precision. -/
def norm64 (v : List F32) : F64 := (IeeeFloat.sum (v.map fun x ↦ x.convert.mul x.convert)).sqrt

/-- `(score, goodness)` of a stored vector against the query. -/
def score (metric : VectorMetric) (v query : List F32) (qnorm : F64) : Option (F64 × F64) :=
  let dot : F64 := .sum (List.zipWith (fun a b ↦ a.convert.mul b.convert) v query)
  match metric with
  | .dot => some (dot, dot)
  | .cosine =>
    if (norm64 v).eqv (.ofInt 0) || qnorm.eqv (.ofInt 0) then none
    else
      let c := dot.div ((norm64 v).mul qnorm)
      some (c, c)
  | .euclidean =>
    let square (a b : F32) : F64 := (a.convert.add b.convert.neg).mul (a.convert.add b.convert.neg)
    let d := (IeeeFloat.sum (List.zipWith square v query)).sqrt
    some (d, d.neg)

/-- The scores of the source. -/
def Scoring.double : Scoring F64 := ⟨norm64, Ann.score⟩

end Ann

namespace Ann

/-! ## What a layer search returns -/

variable {D : Type} [LinearOrder D]

theorem Cand.le_iff {a b : Cand D} : Cand.Le a b ↔ toLex (a.d, a.id) ≤ toLex (b.d, b.id) := by
  rw [Prod.Lex.le_iff]
  rfl

instance : Std.Total (Cand.Le (D := D)) := ⟨fun a b ↦ by
  rw [Cand.le_iff, Cand.le_iff]
  exact le_total ..⟩

instance : IsTrans (Cand D) Cand.Le := ⟨fun a b c ↦ by
  simp only [Cand.le_iff]
  exact le_trans⟩

namespace Hnsw

variable (g : Geometry D)

/-- What was found is in order, and no more than asked for. -/
structure Kept (ef : ℕ) (s : Search D) : Prop where
  sorted : s.best.Pairwise Cand.Le
  length_le : s.best.length ≤ ef

theorem Kept.visit {ef : ℕ} {s : Search D} (hs : Kept ef s) (h : Hnsw) (q : List F32) (n : ℕ) :
    Kept ef (h.visit g q ef s n) := by
  rw [Hnsw.visit]
  split
  · exact hs
  · split
    · exact ⟨hs.sorted, hs.length_le⟩
    · rename_i node _
      dsimp only
      split
      · have hsorted := hs.sorted.orderedInsert ⟨g.dist h.annMeta.metric q node.vector, n⟩
        have hlen := List.orderedInsert_length Cand.Le s.best
          ⟨g.dist h.annMeta.metric q node.vector, n⟩
        refine ⟨?_, ?_⟩
        · split
          · exact hsorted.sublist (List.dropLast_sublist _)
          · exact hsorted
        · have hle := hs.length_le
          split
          · rw [List.length_dropLast]
            omega
          · exact not_lt.mp ‹_›
      · exact ⟨hs.sorted, hs.length_le⟩

theorem Kept.foldl_visit {ef : ℕ} {s : Search D} (hs : Kept ef s) (h : Hnsw) (q : List F32)
    (l : List ℕ) : Kept ef (l.foldl (h.visit g q ef) s) := by
  induction l generalizing s with
  | nil => exact hs
  | cons n l ih => exact ih (hs.visit g h q n)

/-- **A layer search returns distinct ids, nearest first, and at most `ef`**, on any graph and from
any distinct entry points. -/
theorem searchLayer_kept (h : Hnsw) (q : List F32) {eps : List (Cand D)}
    (heps : (eps.map Cand.id).Nodup) (ef layer : ℕ) :
    (h.searchLayer g q eps ef layer).Pairwise Cand.Le ∧
      ((h.searchLayer g q eps ef layer).map Cand.id).Nodup ∧
      (h.searchLayer g q eps ef layer).length ≤ ef := by
  have hloop : ∀ s : Search D, Kept ef s → (h.searchLoop g q ef layer s).Pairwise Cand.Le ∧
      (h.searchLoop g q ef layer s).length ≤ ef := by
    intro s hs
    fun_induction searchLoop g h q ef layer s with
    | case1 s hf => exact ⟨hs.sorted, hs.length_le⟩
    | case2 s c rest hf hstop => exact ⟨hs.sorted, hs.length_le⟩
    | case3 s c rest hf hgo ih =>
      have hrest : Kept ef { s with frontier := rest } := ⟨hs.sorted, hs.length_le⟩
      exact ih (hrest.foldl_visit g h q _)
  have hstart : Kept ef (⟨eps.map Cand.id, eps.insertionSort Cand.Le,
      (eps.insertionSort Cand.Le).take ef⟩ : Search D) :=
    ⟨(List.pairwise_insertionSort Cand.Le eps).sublist (List.take_sublist ..),
      List.length_take_le ..⟩
  obtain ⟨hsorted, hlen⟩ := hloop _ hstart
  exact ⟨hsorted, (searchLayer_spec g (P := fun _ ↦ True) (by simp) heps (by simp)).2, hlen⟩

theorem nodup_of_descend {h : Hnsw} {q : List F32} {downTo : ℕ} {eps : List (Cand D)}
    (hd : h.descend g q downTo = .ok eps) : (eps.map Cand.id).Nodup := by
  simp only [descend, Except.bind_eq_ok] at hd
  obtain ⟨entry, -, c, -, hd⟩ := hd
  obtain rfl := Except.ok.inj hd
  generalize (List.range (h.annMeta.maxLevel - downTo)).map (h.annMeta.maxLevel - ·) = layers
  suffices H : ∀ eps : List (Cand D), (eps.map Cand.id).Nodup →
      ((layers.foldl (fun eps layer ↦ h.searchLayer g q eps 1 layer) eps).map Cand.id).Nodup from
    H [c] (by simp)
  induction layers with
  | nil => exact fun eps heps ↦ heps
  | cons layer layers ih => exact fun eps heps ↦ ih _ (searchLayer_kept g h q heps 1 layer).2.1

theorem search_spec {h : Hnsw} (hinj : ∀ id id' n n', h.node id = some n → h.node id' = some n' →
      n.pk = n'.pk → id = id') {q : List F32} {ef : ℕ} {found : List Bytes}
    (hs : h.search g q ef = .ok found) :
    found.Nodup ∧ found.length ≤ ef ∧ ∀ k ∈ found, ∃ id n, h.node id = some n ∧ n.pk = k := by
  rw [search] at hs
  split at hs
  · obtain rfl := Except.ok.inj hs
    simp
  · simp only [Except.bind_eq_ok] at hs
    obtain ⟨eps, heps, hs⟩ := hs
    obtain rfl := Except.ok.inj hs
    obtain ⟨-, hnodup, hlen⟩ := searchLayer_kept g h q (nodup_of_descend g heps) ef 0
    refine ⟨?_, (List.length_filterMap_le ..).trans hlen, fun k hk ↦ ?_⟩
    · rw [List.Nodup, List.pairwise_map] at hnodup
      refine List.pairwise_filterMap.mpr (hnodup.imp fun {c c'} hne k hk k' hk' heq ↦ hne ?_)
      obtain ⟨n, hn, rfl⟩ := Option.map_eq_some_iff.mp hk
      obtain ⟨n', hn', rfl⟩ := Option.map_eq_some_iff.mp hk'
      exact hinj _ _ _ _ hn hn' heq
    · obtain ⟨c, -, hk⟩ := List.mem_filterMap.mp hk
      obtain ⟨n, hn, hpk⟩ := Option.map_eq_some_iff.mp hk
      exact ⟨c.id, n, hn, hpk⟩

end Hnsw

end Ann

open Ann

namespace TableStore

/-- Per-query options. -/
structure VectorSearchOptions where
  exact : Bool := false
  efSearch : Option ℕ := none

variable {S D : Type} [LinearOrder S] [LinearOrder D] (sc : Scoring S) (g : Geometry D)
variable [Unicode]

/-! ## Searching the index -/

/-- Beyond this many candidates a filtered search gives up on the index. -/
def maxEf : ℕ := 16384

/-- `usize::saturating_mul`. -/
def saturatingMul (a b : ℕ) : ℕ := min (a * b) (2 ^ 64 - 1)

/-- A candidate that is a hit: how good it is, the sortable key of its row, the row and its score. -/
structure VectorHit (S : Type) where
  goodness : S
  key : Bytes
  hit : ScoredRow S

/-- Best first, ties by key. -/
def VectorHit.Le (a b : VectorHit S) : Prop :=
  b.goodness < a.goodness ∨ a.goodness = b.goodness ∧ a.key ≤ b.key

instance : DecidableRel (VectorHit.Le (S := S)) := fun a b ↦
  inferInstanceAs (Decidable (b.goodness < a.goodness ∨ a.goodness = b.goodness ∧ a.key ≤ b.key))

/-- The hit of a key that was found: its row passes the filter and its vector has a score. -/
def hitOf (t : TableStore) (schema : TableSchema) (column : String) (kind : ColumnKind)
    (metric : VectorMetric) (filter : Option Query) (query : List F32) (qnorm : S) (key : Bytes) :
    Except BknError (Option (VectorHit S)) := do
  let pk ← decodeSortable kind key
  match t.getIn pk with
  | none => return none
  | some row =>
    if passes schema filter row then
      return ((row.values.get? column).bind vectorOf).bind fun v ↦
        (sc.score metric v query qnorm).map fun e ↦ ⟨e.2, key, row, e.1⟩
    else return none

/-- Search with `ef` candidates; widen when the filter rejected too many of them, and give up when
there are no more to be had. -/
def widen (t : TableStore) (schema : TableSchema) (column : String) (kind : ColumnKind) (h : Hnsw)
    (metric : VectorMetric) (filter : Option Query) (query q : List F32) (qnorm : S) (limit ef : ℕ)
    (hpos : 0 < ef) : Except BknError (Option (List (ScoredRow S))) := do
  let found ← h.search g q ef
  let hits ← found.mapM (t.hitOf sc schema column kind metric filter query qnorm)
  let hits := hits.filterMap id
  if limit ≤ hits.length ∨ filter.isNone = true ∨ found.length < ef then
    return some (((hits.mergeSort fun a b ↦ decide (VectorHit.Le a b)).take limit).map (·.hit))
  else if hmore : h.annMeta.count ≤ ef ∨ maxEf ≤ ef then return none
  else
    widen t schema column kind h metric filter query q qnorm limit (saturatingMul ef 4)
      (by rw [saturatingMul]; omega)
termination_by maxEf - ef
decreasing_by
  rw [maxEf, saturatingMul] at *
  omega

/-- How many candidates to start with. -/
def startEf (limit : ℕ) (efSearch : Option ℕ) : ℕ :=
  max (max (efSearch.getD (max (saturatingMul limit 4) 64)) limit) 1

/-- Answer from the index, or `none` when there is none to use or scanning is the better plan. -/
def searchIn (t : TableStore) (schema : TableSchema) (column : String) (query : List F32)
    (limit : ℕ) (metric : VectorMetric) (filter : Option Query) (efSearch : Option ℕ) :
    Except BknError (Option (List (ScoredRow S))) :=
  match t.ann column with
  | none => return none
  | some h =>
    if h.annMeta.metric ≠ metric ∨ h.annMeta.count = 0 then return none
    else if query.length ≠ h.annMeta.dim then
      throw (.invalidQuery (s!"vector index '{h.name}' holds {h.annMeta.dim}-dimensional vectors, " ++
        s!"the query has {query.length}"))
    else
      match prepare h.annMeta.metric query with
      | none => return some []
      | some q => do
        let pk ← schema.primaryKeyColumn
        t.widen sc g schema column pk.kind h metric filter query q (sc.length query) limit
          (startEf limit efSearch) (by rw [startEf]; omega)

/-! ## Scanning -/

/-- A scored row with its place in the scan. -/
structure Candidate (S : Type) where
  goodness : S
  seq : ℕ
  score : S
  row : Row

/-- Best first, ties by place. -/
def Candidate.Le (a b : Candidate S) : Prop :=
  b.goodness < a.goodness ∨ a.goodness = b.goodness ∧ a.seq ≤ b.seq

instance : DecidableRel (Candidate.Le (S := S)) := fun a b ↦
  inferInstanceAs (Decidable (b.goodness < a.goodness ∨ a.goodness = b.goodness ∧ a.seq ≤ b.seq))

/-- Score one row and offer it to the heap, whose worst candidate is the last of the list. -/
def scanStep (column : String) (query : List F32) (qnorm : S) (limit : ℕ) (metric : VectorMetric)
    (heap : List (Candidate S)) (e : Except BknError Row × ℕ) :
    Except BknError (List (Candidate S)) := do
  let row ← e.1
  match (row.values.get? column).bind vectorOf with
  | none => return heap
  | some v =>
    .guardOr (v.length = query.length) (.invalidQuery [.text "row ", .debug row.pk,
      .text s!" has a {v.length}-dimensional vector, the query has {query.length}"])
    match sc.score metric v query qnorm with
    | none => return heap
    | some (score, goodness) =>
      let heap := heap.orderedInsert Candidate.Le ⟨goodness, e.2, score, row⟩
      return if limit < heap.length then heap.dropLast else heap

/-- The exact search: every row the filter selects. -/
def exactScan (t : TableStore) (schema : TableSchema) (column : String) (query : List F32)
    (limit : ℕ) (metric : VectorMetric) (q : Query) : Except BknError (List (ScoredRow S)) := do
  let rows ← t.matchingRows schema q
  let heap ← rows.zipIdx.foldlM (scanStep sc column query (sc.length query) limit metric) []
  let best := heap.mergeSort fun a b ↦ decide (Candidate.Le a b)
  return best.map fun c ↦ ⟨c.row, c.score⟩

/-- A column that vectors can be searched in. -/
def checkVectorColumn (schema : TableSchema) (column : String) : Except BknError Unit :=
  match (schema.column column).map ColumnSchema.kind with
  | some .list | some .bytes => return ()
  | some _ => throw (.schemaMismatch schema.name
      s!"vector search needs a List or Bytes column; '{column}' isn't one")
  | none => throw (.schemaMismatch schema.name s!"unknown column '{column}'")

/-- Reserve a heap of `limit + 1` candidates of `size` bytes each: the sum is one of machine words,
and no allocation takes `2 ^ 63` bytes. -/
def reserveHeap (size limit : ℕ) : Except BknError Unit := do
  let capacity ← checkedAdd limit 1
  .guardOr (capacity * size < 2 ^ 63) (.panic "capacity overflow")

/-- The `limit` rows nearest to the query, from the index when it can answer, a candidate of the scan
taking `size` bytes (`search_vector_in`). -/
def searchVectorSized (size : ℕ) (t : TableStore) (schema : TableSchema) (column : String)
    (query : List F32) (limit : ℕ) (metric : VectorMetric) (filter : Option Expr)
    (options : VectorSearchOptions) : Except BknError (List (ScoredRow S)) := do
  checkVectorColumn schema column
  .guardOr (query ≠ []) (.invalidQuery "the query vector is empty")
  let q ← validatedFilter schema filter
  if limit = 0 then return []
  let indexed ← if options.exact then pure none
    else t.searchIn sc g schema column query limit metric q options.efSearch
  match indexed with
  | some hits => return hits
  | none =>
    reserveHeap size limit
    t.exactScan sc schema column query limit metric (q.getD {})

/-! ## What the index answers

A widened search starts over with more candidates, so only the last round counts. Its candidates
are keys of live nodes, and these are keys of rows because the index follows the table. -/

variable {t : TableStore} {schema : TableSchema} {column : String} {metric : VectorMetric}
  {filter : Option Query} {query : List F32} {limit : ℕ}

/-- The search, on the path that scans. -/
theorem searchVectorSized_eq {expr : Option Expr} (size limit : ℕ) (options : VectorSearchOptions)
    (hcolumn : checkVectorColumn schema column = .ok ()) (hne : query ≠ [])
    (hfilter : validatedFilter schema expr = .ok filter)
    (hpath : options.exact = true ∨
      t.searchIn sc g schema column query limit metric filter options.efSearch = .ok none) :
    t.searchVectorSized sc g size schema column query limit metric expr options =
      if limit = 0 then .ok [] else reserveHeap size limit >>= fun _ ↦
        t.exactScan sc schema column query limit metric (filter.getD {}) := by
  rw [searchVectorSized, hcolumn, Except.ok_bind, Except.guardOr_eq_ok (u := ()) |>.mpr hne,
    Except.ok_bind, hfilter, Except.ok_bind]
  split
  · rfl
  · split
    · rfl
    · rw [hpath.resolve_left ‹_›]
      rfl

/-- A hit has the score, and the goodness, of its row's vector. -/
def ScoredAs (column : String) (metric : VectorMetric) (query : List F32) (hit : ScoredRow S)
    (goodness : S) : Prop :=
  ∃ v, (hit.row.values.get? column).bind vectorOf = some v ∧
    sc.score metric v query (sc.length query) = some (hit.score, goodness)

/-- Hits that answer a query: distinct live rows that pass the filter, scored by their vectors, best
first with ties by key. -/
structure SoundHits (t : TableStore) (schema : TableSchema) (column : String)
    (metric : VectorMetric) (filter : Option Query) (query : List F32) (limit : ℕ)
    (hits : List (ScoredRow S)) : Prop where
  length_le : hits.length ≤ limit
  nodup : (hits.map ScoredRow.row).Nodup
  live : ∀ hit ∈ hits, t.HasRow schema hit.row ∧ passes schema filter hit.row = true
  scored : ∀ hit ∈ hits, ∃ goodness, ScoredAs sc column metric query hit goodness
  ordered : hits.Pairwise fun a b ↦ ∃ x y k l,
    ScoredAs sc column metric query a x ∧ ScoredAs sc column metric query b y ∧
      sortableKey a.row.pk = some k ∧ sortableKey b.row.pk = some l ∧ (y < x ∨ x = y ∧ k < l)

/-- A candidate that is a hit of the query. -/
structure VectorHit.Sound (t : TableStore) (schema : TableSchema) (column : String)
    (metric : VectorMetric) (filter : Option Query) (query : List F32) (v : VectorHit S) :
    Prop where
  row : t.HasRow schema v.hit.row
  key : sortableKey v.hit.row.pk = some v.key
  passes : TableStore.passes schema filter v.hit.row = true
  scored : ScoredAs sc column metric query v.hit v.goodness

omit [LinearOrder S] in
theorem hitOf_spec {kind : ColumnKind} (hkind : schema.pkKind = some kind) {row : Row}
    (hrow : t.HasRow schema row) {k : Bytes} (hk : sortableKey row.pk = some k) :
    ∃ o, t.hitOf sc schema column kind metric filter query (sc.length query) k = .ok o ∧
      ∀ v ∈ o, v.key = k ∧ v.Sound sc t schema column metric filter query := by
  have hof := hrow.1
  rw [hkind, Option.some_inj] at hof
  rw [hitOf, hof, decodeSortable_of_sortableKey hk, Except.ok_bind, hrow.getIn]
  dsimp only
  split
  · rename_i hpass
    refine ⟨_, rfl, fun v hv ↦ ?_⟩
    obtain ⟨vec, hvec, hv⟩ := Option.bind_eq_some_iff.mp hv
    obtain ⟨e, he, rfl⟩ := Option.map_eq_some_iff.mp hv
    exact ⟨rfl, hrow, hk, hpass, vec, hvec, he⟩
  · exact ⟨none, rfl, by simp⟩

omit [LinearOrder S] in
theorem mapM_hitOf_spec {kind : ColumnKind} (hkind : schema.pkKind = some kind)
    {found : List Bytes} (hnodup : found.Nodup)
    (hlive : ∀ k ∈ found, ∃ row, t.HasRow schema row ∧ sortableKey row.pk = some k) :
    ∃ hits, found.mapM (t.hitOf sc schema column kind metric filter query (sc.length query)) =
        .ok hits ∧ ((hits.filterMap id).map VectorHit.key).Nodup ∧
      ∀ v ∈ hits.filterMap id, v.Sound sc t schema column metric filter query := by
  obtain ⟨hits, hok, hall⟩ := Except.mapM_exists (Q := fun k (o : Option (VectorHit S)) ↦
    ∀ v ∈ o, v.key = k ∧ v.Sound sc t schema column metric filter query) fun k hk ↦ by
      obtain ⟨row, hrow, hkey⟩ := hlive k hk
      exact hitOf_spec sc hkind hrow hkey
  refine ⟨hits, hok, ?_, fun v hv ↦ ?_⟩
  · rw [List.Nodup, List.pairwise_map, List.pairwise_filterMap]
    refine hall.pairwise_right hnodup fun k k' o o' ho ho' hne v hv v' hv' heq ↦ hne ?_
    rw [← (ho v hv).1, ← (ho' v' hv').1, heq]
  · obtain ⟨o, ho, rfl⟩ := List.mem_filterMap.mp hv
    obtain ⟨k, -, hk⟩ := hall.exists_left ho
    exact (hk v rfl).2

omit [Unicode] in
theorem VectorHit.le_iff {a b : VectorHit S} : VectorHit.Le a b ↔
    toLex (OrderDual.toDual a.goodness, a.key) ≤ toLex (OrderDual.toDual b.goodness, b.key) := by
  rw [Prod.Lex.le_iff]
  rfl

theorem soundHits_of_hits {hits : List (VectorHit S)} (hnodup : (hits.map VectorHit.key).Nodup)
    (h : ∀ v ∈ hits, v.Sound sc t schema column metric filter query) (limit : ℕ) :
    SoundHits sc t schema column metric filter query limit
      (((hits.mergeSort fun a b ↦ decide (VectorHit.Le a b)).take limit).map (·.hit)) := by
  have hsorted : (hits.mergeSort fun a b ↦ decide (VectorHit.Le a b)).Pairwise VectorHit.Le := by
    refine (List.pairwise_mergeSort (fun a b c ↦ ?_) (fun a b ↦ ?_) hits).imp of_decide_eq_true
    · simp only [decide_eq_true_eq, VectorHit.le_iff]
      exact le_trans
    · simp only [Bool.or_eq_true, decide_eq_true_eq, VectorHit.le_iff]
      exact le_total ..
  have hkeys : (hits.mergeSort fun a b ↦ decide (VectorHit.Le a b)).Pairwise
      fun a b ↦ a.key ≠ b.key := by
    rw [← List.pairwise_map, ← List.Nodup, ((List.mergeSort_perm hits _).map _).nodup_iff]
    exact hnodup
  have hsound : ∀ v ∈ hits.mergeSort fun a b ↦ decide (VectorHit.Le a b),
      v.Sound sc t schema column metric filter query := fun v hv ↦
    h v (List.mem_mergeSort.mp hv)
  generalize hits.mergeSort (fun a b ↦ decide (VectorHit.Le a b)) = sorted at hsorted hkeys hsound
  have htake : ∀ v ∈ sorted.take limit, v.Sound sc t schema column metric filter query :=
    fun v hv ↦ hsound v (List.mem_of_mem_take hv)
  have hsub := List.take_sublist limit sorted
  refine ⟨?_, ?_, ?_, ?_, ?_⟩
  · rw [List.length_map]
    exact List.length_take_le ..
  · rw [List.map_map, List.Nodup, List.pairwise_map]
    refine (hkeys.sublist hsub).imp_of_mem fun {a b} ha hb hne heq ↦ hne ?_
    have hk := (htake a ha).key
    rw [show a.hit.row = b.hit.row from heq, (htake b hb).key, Option.some_inj] at hk
    exact hk.symm
  · intro hit hhit
    obtain ⟨v, hv, rfl⟩ := List.mem_map.mp hhit
    exact ⟨(htake v hv).row, (htake v hv).passes⟩
  · intro hit hhit
    obtain ⟨v, hv, rfl⟩ := List.mem_map.mp hhit
    exact ⟨v.goodness, (htake v hv).scored⟩
  · rw [List.pairwise_map]
    refine ((hsorted.and hkeys).sublist hsub).imp_of_mem fun {a b} ha hb hab ↦ ?_
    refine ⟨a.goodness, b.goodness, a.key, b.key, (htake a ha).scored, (htake b hb).scored,
      (htake a ha).key, (htake b hb).key, ?_⟩
    exact hab.1.imp_right fun hle ↦ ⟨hle.1, lt_of_le_of_ne hle.2 hab.2⟩

/-- **Widening ends with an answer or gives up**, and the answer is sound. -/
theorem widen_spec {h : Hnsw} {kind : ColumnKind} (hkind : schema.pkKind = some kind)
    (hsearch : ∀ q ef, ∃ found, h.search g q ef = .ok found ∧ found.Nodup ∧
      ∀ k ∈ found, ∃ row, t.HasRow schema row ∧ sortableKey row.pk = some k)
    (q : List F32) (ef : ℕ) (hpos : 0 < ef) :
    ∃ r, t.widen sc g schema column kind h metric filter query q (sc.length query) limit ef hpos =
        .ok r ∧
      ∀ hits ∈ r, SoundHits sc t schema column metric filter query limit hits := by
  obtain ⟨found, hfound, hnodup, hlive⟩ := hsearch q ef
  obtain ⟨hits, hhits, hkeys, hsound⟩ := @mapM_hitOf_spec S sc _ t schema column metric
    filter query kind hkind found hnodup hlive
  rw [widen, hfound, Except.ok_bind, hhits, Except.ok_bind]
  dsimp only
  split
  · refine ⟨_, rfl, fun hits' hr ↦ ?_⟩
    obtain rfl := Option.some.inj hr
    exact soundHits_of_hits sc hkeys hsound limit
  · split
    · exact ⟨none, rfl, by simp⟩
    · exact widen_spec hkind hsearch q _ _
termination_by maxEf - ef
decreasing_by
  rw [maxEf, saturatingMul] at *
  omega

omit [Unicode] in
theorem VectorInvariant.search_spec {h : Hnsw} (hinv : t.VectorInvariant column h)
    (hkeyed : t.RowsKeyed schema) (q : List F32) (ef : ℕ) :
    ∃ found, h.search g q ef = .ok found ∧ found.Nodup ∧
      ∀ k ∈ found, ∃ row, t.HasRow schema row ∧ sortableKey row.pk = some k := by
  obtain ⟨found, hfound⟩ := Hnsw.search_isOk g
    (fun e he ↦ (hinv.entrySome e he).imp fun _ hn ↦ hn.1) q ef
  have hinj : ∀ id id' n n', h.node id = some n → h.node id' = some n' → n.pk = n'.pk →
      id = id' := fun id id' n n' hn hn' hpk ↦ by
    have hid := (hinv.bijection n.pk id).mpr ⟨n, hn, rfl⟩
    rw [(hinv.bijection n.pk id').mpr ⟨n', hn', hpk.symm⟩, Option.some_inj] at hid
    exact hid.symm
  obtain ⟨hnodup, -, hmem⟩ := Hnsw.search_spec g hinj hfound
  refine ⟨found, hfound, hnodup, fun k hk ↦ ?_⟩
  obtain ⟨id, n, hn, hpk⟩ := hmem k hk
  have hsome : (h.pks.get? k).isSome = true := by
    rw [(hinv.bijection k id).mpr ⟨n, hn, hpk⟩]
    rfl
  obtain ⟨values, -, -, hget, -⟩ := (hinv.indexed k).mp hsome
  obtain ⟨pk, hkey, hrow⟩ := hkeyed k values hget
  exact ⟨_, hrow, hkey⟩

/-- Where the first search finds enough hits, it answers with as many as were asked for. -/
theorem searchIn_length {h : Hnsw} {pk : ColumnSchema} {q : List F32} {found : List Bytes}
    {hits : List (Option (VectorHit S))} {efSearch : Option ℕ} (hann : t.ann column = some h)
    (hmetric : h.annMeta.metric = metric) (hcount : h.annMeta.count ≠ 0)
    (hdim : query.length = h.annMeta.dim) (hq : prepare metric query = some q)
    (hpk : schema.primaryKeyColumn = .ok pk)
    (hfound : h.search g q (startEf limit efSearch) = .ok found)
    (hhits : found.mapM (t.hitOf sc schema column pk.kind metric filter query (sc.length query)) =
      .ok hits)
    (henough : limit ≤ (hits.filterMap id).length) :
    ∃ answer, t.searchIn sc g schema column query limit metric filter efSearch =
      .ok (some answer) ∧ answer.length = limit := by
  refine ⟨(((hits.filterMap id).mergeSort fun a b ↦ decide (VectorHit.Le a b)).take limit).map
    (·.hit), ?_, ?_⟩
  · have hsame : ¬(h.annMeta.metric ≠ metric ∨ h.annMeta.count = 0) := by
      rintro (hne | hzero)
      · exact hne hmetric
      · exact hcount hzero
    rw [searchIn, hann]
    dsimp only
    rw [if_neg hsame, if_neg (not_not.mpr hdim), hmetric, hq]
    dsimp only
    rw [hpk, Except.ok_bind, widen, hfound, Except.ok_bind, hhits, Except.ok_bind]
    exact if_pos (.inl henough)
  · rw [List.length_map, List.length_take, List.length_mergeSort, Nat.min_eq_left henough]

/-- **Vector index search is sound.** -/
theorem searchIn_sound {h : Hnsw} (hkeyed : t.RowsKeyed schema)
    (hpk : ∃ kind, schema.pkKind = some kind) (hann : t.ann column = some h)
    (hinv : t.VectorInvariant column h) (hdim : query.length = h.annMeta.dim) (limit : ℕ)
    (metric : VectorMetric) (filter : Option Query) (efSearch : Option ℕ) :
    -- the search returns, with a sound answer or none
    (∃ r, t.searchIn sc g schema column query limit metric filter efSearch = .ok r ∧
      ∀ hits ∈ r, SoundHits sc t schema column metric filter query limit hits) ∧
    -- without one, the rows are scanned, once there is room for the heap
    (∀ size expr exact, checkVectorColumn schema column = .ok () → query ≠ [] → limit ≠ 0 →
      validatedFilter schema expr = .ok filter →
      (exact = true ∨ t.searchIn sc g schema column query limit metric filter efSearch = .ok none) →
      t.searchVectorSized sc g size schema column query limit metric expr ⟨exact, efSearch⟩ =
        reserveHeap size limit >>= fun _ ↦
          t.exactScan sc schema column query limit metric (filter.getD {})) ∧
    -- a layer of any graph, searched from distinct entry points
    ∀ (graph : Hnsw) (q : List F32) (eps : List (Cand D)), (eps.map Cand.id).Nodup →
      ∀ ef layer, (graph.searchLayer g q eps ef layer).Pairwise Cand.Le ∧
        ((graph.searchLayer g q eps ef layer).map Cand.id).Nodup ∧
        (graph.searchLayer g q eps ef layer).length ≤ ef := by
  refine ⟨?_, fun size expr exact hcolumn hne hlimit hfilter hnone ↦ ?_,
    fun graph q eps heps ef layer ↦ Hnsw.searchLayer_kept g graph q heps ef layer⟩
  · rw [searchIn, hann]
    dsimp only
    split
    · exact ⟨none, rfl, by simp⟩
    · rw [if_neg (not_not.mpr hdim)]
      split
      · refine ⟨some [], rfl, fun hits hhits ↦ ?_⟩
        obtain rfl := Option.some.inj hhits
        exact ⟨Nat.zero_le _, List.nodup_nil, by simp, by simp, .nil⟩
      · rename_i q _
        obtain ⟨kind, hkind⟩ := hpk
        obtain ⟨pk, hpk, rfl⟩ := TableSchema.primaryKeyColumn_of_pkKind hkind
        rw [hpk, Except.ok_bind]
        exact widen_spec sc g hkind (fun q ef ↦ hinv.search_spec g hkeyed q ef) q _ _
  · rw [searchVectorSized_eq sc g size limit ⟨exact, efSearch⟩ hcolumn hne hfilter hnone,
      if_neg hlimit]

end TableStore

/-! ## A search among two vectors -/

namespace RelRun

open TableStore

private def twoItems : List (List DbOp) :=
  [itemsTx, [insertItem 1 [.int 1, .int 2], insertItem 2 [.int 3, .int 4]]]

/-- The hits of the first search, for the best one. -/
private def hitsOf (t : TableStore) (h : Hnsw) :
    Except BknError (List (Option (VectorHit F64))) := do
  let found ← h.search Ann.flat [.ofInt 1, .ofInt 0] (startEf 1 none)
  found.mapM (@hitOf F64 .double Unicode.ascii t itemsSchema "v" .int .dot none
    [.ofInt 1, .ofInt 0] (Scoring.double.length [.ofInt 1, .ofInt 0]))

/-- Two rows and their index, where both are found. -/
private def twoItemsCheck (r : RelRun) : Bool :=
  decide ((r.store "items").annColumns = ["v"]) &&
    (r.store "items").rows.keys.all (fun k ↦
      decide (k ∈ [1, 2].filterMap fun i ↦ sortableKey (.int i))) &&
    ((r.store "items").ann "v").any fun h ↦
      decide (h.annMeta.dim = 2) && decide (h.annMeta.count = 2) &&
        decide (h.annMeta.metric = .dot) &&
        (hitsOf (r.store "items") h).toOption.any fun hits ↦ decide ((hits.filterMap id).length = 2)

theorem searchIn_sound_items : ∃ (r : RelRun) (h : Hnsw) (hits : List (ScoredRow F64)),
    @Reachable Unicode.ascii ℕ _ Ann.flat (DbOp.Gives FitsIndex) r ∧
      (r.store "items").ann "v" = some h ∧ h.annMeta.count = 2 ∧
      @searchIn F64 ℕ _ _ .double Ann.flat Unicode.ascii (r.store "items") itemsSchema "v"
        [.ofInt 1, .ofInt 0] 1 .dot none none = .ok (some hits) ∧ hits.length = 1 ∧
      @SoundHits F64 _ .double Unicode.ascii (r.store "items") itemsSchema "v" .dot
        none [.ofInt 1, .ofInt 0] 1 hits := by
  obtain ⟨r, hr, hp⟩ := @exists_reachable Unicode.ascii ℕ _ Ann.flat (DbOp.Gives FitsIndex) twoItems
    twoItemsCheck (by
      intro ops hops op hop
      simp only [twoItems, List.mem_cons, List.not_mem_nil, or_false] at hops
      rcases hops with rfl | rfl
      · refine ⟨gives_itemsTx op hop, ?_⟩
        simp only [itemsTx, List.mem_cons, List.not_mem_nil, or_false] at hop
        rcases hop with rfl | rfl <;> decide +kernel
      · simp only [List.mem_cons, List.not_mem_nil, or_false] at hop
        rcases hop with rfl | rfl <;> exact ⟨gives_insertItem _ (by decide), by decide +kernel⟩)
    (by decide +kernel)
  simp only [twoItemsCheck, Bool.and_eq_true, decide_eq_true_eq, List.all_eq_true] at hp
  obtain ⟨⟨hcolumns, hkeys⟩, hany⟩ := hp
  obtain ⟨h, hann, hcheck⟩ := (Option.any_eq_true _ _).mp hany
  simp only [Bool.and_eq_true, decide_eq_true_eq, Except.any_toOption] at hcheck
  obtain ⟨⟨⟨hdim, hcount⟩, hmetric⟩, hits, hhits, htwo⟩ := hcheck
  have hkeyed : (r.store "items").RowsKeyed itemsSchema := fun k values hget ↦ by
    obtain ⟨i, -, hk⟩ := List.mem_filterMap.mp (hkeys k (OrdMap.mem_keys.mpr ⟨values, hget⟩))
    exact ⟨.int i, hk, rfl, k, hk, hget⟩
  obtain ⟨hvec, hholds⟩ := @Reachable.vectorInv Unicode.ascii ℕ _ Ann.flat r hr "items"
  obtain ⟨found, hfound, hhits⟩ := Except.bind_eq_ok.mp hhits
  obtain ⟨answer, hanswer, hlen⟩ := @searchIn_length F64 ℕ _ _ .double Ann.flat Unicode.ascii
    (r.store "items") itemsSchema "v" .dot none [.ofInt 1, .ofInt 0] 1 h _ _ _ _
    none hann hmetric (by omega) hdim.symm rfl rfl hfound hhits (by omega)
  obtain ⟨⟨r', hr', hsound⟩, -⟩ := @searchIn_sound F64 ℕ _ _ .double Ann.flat Unicode.ascii
    (r.store "items") itemsSchema "v" [.ofInt 1, .ofInt 0] h hkeyed ⟨_, rfl⟩ hann
    (hvec.vectorInvariant hholds (by rw [hcolumns]; simp) hann) hdim.symm 1 .dot none none
  obtain rfl := Except.ok.inj (hanswer.symm.trans hr')
  exact ⟨r, h, answer, hr, hann, hcount, hanswer, hlen, hsound answer rfl⟩

end RelRun
