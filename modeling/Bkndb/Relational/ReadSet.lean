import Bkndb.Relational.Aggregate
import Bkndb.Relational.Plan
import Bkndb.Relational.TextSearch
import Bkndb.Relational.VectorScan

/-!
# What queries read

A query of a table reads its rows, its catalog entries and the derived tables of the columns that
have an index: `TableStore.registered` drops the others, and no query notices.

## Main results

* `TableStore.selectIn_registered`, `TableStore.countIn_registered` and
  `TableStore.aggregateIn_registered`: the planner takes a secondary index only of a column that
  the schema indexes, so whatever access path it chooses, the index tables of other columns are not
  read.
* `TableStore.searchTextIn_registered`: a text search reads the postings and the document lengths of
  a column in the registry.
* `TableStore.searchVectorSized_registered`: a vector search reads the graph of its column, or
  scans.

A lookup trusts an index entry only after it has read the row, so the rows are part of what every
query reads.
-/

open PropValue Ann

namespace TableStore

/-- The table without the derived tables that belong to no index. -/
def registered (t : TableStore) (schema : TableSchema) : TableStore :=
  { t with
    index := fun c ↦ if c ∈ schema.indexedColumns then t.index c else ∅
    postings := fun c ↦ if c ∈ t.ftsColumns then t.postings c else ∅
    docs := fun c ↦ if c ∈ t.ftsColumns then t.docs c else ∅ }

section Lookups

variable {t : TableStore} {schema : TableSchema}

theorem registered_index {c : String} (h : c ∈ schema.indexedColumns) :
    (t.registered schema).index c = t.index c := if_pos h

theorem registered_postings {c : String} (h : c ∈ t.ftsColumns) :
    (t.registered schema).postings c = t.postings c := if_pos h

theorem registered_docs {c : String} (h : c ∈ t.ftsColumns) :
    (t.registered schema).docs c = t.docs c := if_pos h

theorem loadStats_registered (c : String) : (t.registered schema).loadStats c = t.loadStats c := rfl

theorem registered_ann (c : String) : (t.registered schema).ann c = t.ann c := rfl

theorem getIn_registered (pk : PropValue) : (t.registered schema).getIn pk = t.getIn pk := rfl

theorem resolveIndexRowsIn_registered (column : String) (keys : List (Bytes × Unit)) :
    (t.registered schema).resolveIndexRowsIn schema column keys =
      t.resolveIndexRowsIn schema column keys := rfl

/-! ## Access paths -/

theorem indexLookupEqIn_registered {c : String} (h : c ∈ schema.indexedColumns) (v : PropValue) :
    (t.registered schema).indexLookupEqIn schema c v = t.indexLookupEqIn schema c v := by
  simp only [indexLookupEqIn, registered_index h, resolveIndexRowsIn_registered]

/-- An access path that goes through a secondary index goes through one of the schema. -/
def Access.OnIndex (schema : TableSchema) : Access → Prop
  | .indexEq c _ | .indexPrefix c _ | .indexRange c _ _ => c ∈ schema.indexedColumns
  | _ => True

theorem candidates_registered {access : Access} (h : Access.OnIndex schema access) :
    (t.registered schema).candidates schema access = t.candidates schema access := by
  cases access with
  | pkGet pks => rfl
  | indexEq c vs =>
    rw [candidates, candidates, funext (indexLookupEqIn_registered h)]
  | pkRange lo hi => rfl
  | indexPrefix c p =>
    simp only [candidates, indexLookupPrefixIn, registered_index h, resolveIndexRowsIn_registered]
  | indexRange c lo hi =>
    simp only [candidates, indexLookupRangeIn, registered_index h, resolveIndexRowsIn_registered]
  | scan => rfl

/-- The planner chooses such a path. -/
theorem onIndex_of_plan [Unicode] {filters : List Expr} {access : Access}
    (h : plan schema filters = .ok access) : Access.OnIndex schema access := by
  obtain ⟨pk, -, ⟨e, -, pks, -, rfl⟩ | ⟨e, -, c, vs, hpin, rfl⟩ | ⟨lo, hi, -, rfl⟩ |
    ⟨e, -, c, p, hpin, rfl⟩ | ⟨c, hc, col, lo, hi, -, -, rfl⟩ | rfl⟩ := plan_cases h
  · trivial
  · exact (pinsIndexed_spec hpin).1
  · trivial
  · exact (pinsPrefix_spec hpin).2.1
  · exact hc
  · trivial

end Lookups

section Queries

variable [Unicode] (t : TableStore) (schema : TableSchema)

theorem matchingRows_registered (q : Query) :
    (t.registered schema).matchingRows schema q = t.matchingRows schema q := by
  rw [matchingRows, matchingRows]
  cases hplan : plan schema q.filters with
  | error e => rfl
  | ok access => rw [Except.ok_bind, Except.ok_bind, candidates_registered (onIndex_of_plan hplan)]

theorem selectIn_registered (q : Query) :
    (t.registered schema).selectIn schema q = t.selectIn schema q := by
  simp only [selectIn, selectSorted, matchingRows_registered]
  cases hplan : plan schema q.filters with
  | error e => rfl
  | ok access =>
    simp only [Except.ok_bind, selectStreaming, candidates_registered (onIndex_of_plan hplan)]

theorem countIn_registered (q : Query) :
    (t.registered schema).countIn schema q = t.countIn schema q := by
  rw [countIn, matchingRows_registered, countIn]

theorem aggregateIn_registered (q : Query) (groupBy : List String) (aggs : List Agg) :
    (t.registered schema).aggregateIn schema q groupBy aggs =
      t.aggregateIn schema q groupBy aggs := by
  rw [aggregateIn, matchingRows_registered, aggregateIn]

/-! ## Text search -/

omit [Unicode] in
theorem matchTerm_registered {column : String} (h : column ∈ t.ftsColumns) (corpus : Corpus)
    (hits : Hits) (e : QueryTerm × ℕ) :
    (t.registered schema).matchTerm column corpus hits e = t.matchTerm column corpus hits e := by
  have hadd (i : ℕ) (idf : F64) : (t.registered schema).addPosting column corpus i idf =
      t.addPosting column corpus i idf := by
    funext hits e
    rw [addPosting, addPosting, registered_docs h]
  have hgroup : (t.registered schema).addPostings column corpus e.2 =
      t.addPostings column corpus e.2 := by
    funext hits e
    rw [addPostings, addPostings, hadd]
  rw [matchTerm, matchTerm, hgroup, termPostings, termPostings, registered_postings h]

theorem fetchHits_registered (kind : ColumnKind) (filter : Option Query) (limit : ℕ)
    (out : List (ScoredRow F64)) (ranked : List (Bytes × F64)) :
    (t.registered schema).fetchHits schema kind filter limit out ranked =
      t.fetchHits schema kind filter limit out ranked := by
  induction ranked generalizing out with
  | nil => rfl
  | cons e ranked ih => simp only [fetchHits, getIn_registered, ih]

theorem searchTextIn_registered (ln : F64 → F64) (column query : String) (limit : ℕ)
    (matchAll : Bool) (filter : Option Expr) :
    (t.registered schema).searchTextIn ln schema column query limit matchAll filter =
      t.searchTextIn ln schema column query limit matchAll filter := by
  rw [searchTextIn, searchTextIn]
  by_cases hcolumn : column ∈ t.ftsColumns
  · have hmatch (corpus : Corpus) : (t.registered schema).matchTerm column corpus =
        t.matchTerm column corpus :=
      funext₂ (matchTerm_registered t schema hcolumn corpus)
    rw [Except.guardOr, if_pos (show column ∈ (t.registered schema).ftsColumns from hcolumn),
      Except.guardOr, if_pos hcolumn]
    simp only [loadStats_registered, hmatch, fetchHits_registered]
  · -- a column without an index is refused before anything is read
    rw [Except.guardOr, if_neg (show column ∉ (t.registered schema).ftsColumns from hcolumn),
      Except.guardOr, if_neg hcolumn, Except.error_bind, Except.error_bind]

/-! ## Vector search -/

section Vectors

variable {S D : Type} [LinearOrder S] [LinearOrder D] (sc : Scoring S) (g : Geometry D)

theorem widen_registered (column : String) (kind : ColumnKind) (h : Hnsw) (metric : VectorMetric)
    (filter : Option Query) (query q : List F32) (qnorm : S) (limit ef : ℕ) (hpos : 0 < ef) :
    (t.registered schema).widen sc g schema column kind h metric filter query q qnorm limit ef
        hpos =
      t.widen sc g schema column kind h metric filter query q qnorm limit ef hpos := by
  induction ef, hpos using @widen.induct S h limit with
  | case1 ef hpos ih =>
    conv_lhs => rw [widen]
    conv_rhs => rw [widen]
    refine bind_congr (m := Except BknError) fun found ↦ bind_congr fun hits ↦ ?_
    dsimp only
    split
    · rfl
    · split
      · rfl
      · next hmore => exact ih found hits hmore

theorem searchVectorSized_registered (size : ℕ) (column : String) (query : List F32) (limit : ℕ)
    (metric : VectorMetric) (filter : Option Expr) (options : VectorSearchOptions) :
    (t.registered schema).searchVectorSized sc g size schema column query limit metric filter
        options =
      t.searchVectorSized sc g size schema column query limit metric filter options := by
  have hindexed (q : Option Query) :
      (t.registered schema).searchIn sc g schema column query limit metric q options.efSearch =
        t.searchIn sc g schema column query limit metric q options.efSearch := by
    simp only [searchIn, registered_ann, widen_registered]
  have hscan (q : Query) : (t.registered schema).exactScan sc schema column query limit metric q =
      t.exactScan sc schema column query limit metric q := by
    rw [exactScan, matchingRows_registered, exactScan]
  simp only [searchVectorSized, hindexed, hscan]

end Vectors

end Queries

end TableStore
