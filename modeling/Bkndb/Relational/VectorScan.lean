import Bkndb.Basic.TopK
import Bkndb.Relational.VectorSearch

/-!
# Exact vector search

The search of `search_vector_in` with the heap it reserves before scanning: room for `limit + 1`
candidates, a request that a large limit makes impossible. Where it can be met, the scan returns the
front of the stably sorted rows (`searchVectorSized_isTopK_iff`).

The heap keeps the best candidates in order, so it is the front of all candidates in order
(`Bkndb.Basic.TopK`); a candidate carries its place in the scan, which settles every tie the way a
stable sort does.

## What the model leaves open

The number of bytes of a candidate is that of the source's compiler, so it is a parameter. Whether
a machine has the memory that may be asked for is not part of the model: a request within the
bounds of the language succeeds.

## Main results

* `insertAll_candidates`: the candidates in order are the stably sorted rows.
* `searchVectorSized_isTopK_iff`: an exact search returns the best rows, for every limit, exactly
  as long as its heap can be reserved.
-/

open PropValue Ann

namespace TableStore

variable {S D : Type} [LinearOrder S] [LinearOrder D] (sc : Scoring S) (g : Geometry D)

/-! ## What it owes -/

/-- The vector of a row. -/
def rowVector (column : String) (row : Row) : Option (List F32) :=
  (row.values.get? column).bind vectorOf

/-- A row whose vector has another length than the query. -/
def WrongLength (column : String) (query : List F32) (row : Row) : Prop :=
  ∃ v ∈ rowVector column row, v.length ≠ query.length

/-- The score of a row, with how good it is; none without a vector or a score. -/
def scoredRow (column : String) (query : List F32) (metric : VectorMetric) (row : Row) :
    Option (S × ScoredRow S) :=
  (rowVector column row).bind fun v ↦
    (sc.score metric v query (sc.length query)).map fun e ↦ (e.2, ⟨row, e.1⟩)

/-- The first `limit` of the scored rows, stably sorted by descending goodness. -/
def bestRows (column : String) (query : List F32) (metric : VectorMetric) (limit : ℕ)
    (rows : List Row) : List (ScoredRow S) :=
  (((rows.filterMap (scoredRow sc column query metric)).mergeSort
    fun a b ↦ decide (b.1 ≤ a.1)).take limit).map Prod.snd

/-- The rows a search of the given limit reaches. -/
def reached (limit : ℕ) (rows : List Row) : List Row := if limit = 0 then [] else rows

/-- An error that is returned, not a panic. -/
def Refuses {α : Type} (r : Except BknError α) : Prop :=
  ∃ e, r = .error e ∧ ∀ message, e ≠ .panic message

/-- What an exact search owes: an error for a vector of another length, and the best rows
otherwise. -/
structure IsTopK (column : String) (query : List F32) (metric : VectorMetric) (limit : ℕ)
    (rows : List Row) (r : Except BknError (List (ScoredRow S))) : Prop where
  refuses : Refuses r ↔ ∃ row ∈ reached limit rows, WrongLength column query row
  returns : (∀ row ∈ reached limit rows, ¬ WrongLength column query row) →
    r = .ok (bestRows sc column query metric limit rows)

/-! ## The scan -/

variable {column : String} {query : List F32} {metric : VectorMetric} {limit : ℕ}

/-- The candidate of a row at its place in the scan. -/
def candidateOf (column : String) (query : List F32) (metric : VectorMetric) (e : Row × ℕ) :
    Option (Candidate S) :=
  (scoredRow sc column query metric e.1).map fun x ↦ ⟨x.1, e.2, x.2.score, x.2.row⟩

theorem Candidate.le_iff {a b : Candidate S} :
    Candidate.Le a b ↔ toLex (OrderDual.toDual a.goodness, a.seq) ≤
      toLex (OrderDual.toDual b.goodness, b.seq) := by
  rw [Prod.Lex.le_iff]
  rfl

instance : Std.Total (Candidate.Le (S := S)) := ⟨fun a b ↦ by
  rw [Candidate.le_iff, Candidate.le_iff]
  exact le_total ..⟩

instance : IsTrans (Candidate S) Candidate.Le := ⟨fun a b c ↦ by
  simp only [Candidate.le_iff]
  exact le_trans⟩

/-- **One row**: a vector of another length is refused, and any other row is offered to the heap
with its score. -/
theorem scanStep_cases (heap : List (Candidate S)) (row : Row) (i : ℕ) :
    (WrongLength column query row ∧ ∃ message,
      scanStep sc column query (sc.length query) limit metric heap (.ok row, i) =
        .error (.invalidQuery message)) ∨
    (¬ WrongLength column query row ∧
      scanStep sc column query (sc.length query) limit metric heap (.ok row, i) =
        .ok ((candidateOf sc column query metric (row, i)).elim heap
          (TopK.push Candidate.Le limit heap))) := by
  rw [scanStep, Except.ok_bind, candidateOf, scoredRow]
  simp only [WrongLength, rowVector]
  cases (row.values.get? column).bind vectorOf with
  | none => exact .inr ⟨by simp, rfl⟩
  | some v =>
    by_cases hlen : v.length = query.length
    · refine .inr ⟨by simpa using hlen, ?_⟩
      simp only [Except.guardOr_eq_ok (u := ()) |>.mpr hlen, Except.ok_bind, Option.bind_some]
      cases sc.score metric v query (sc.length query) with
      | none => rfl
      | some e => rfl
    · refine .inl ⟨by simpa using hlen, ?_⟩
      simp only [Except.guardOr, if_neg hlen]
      exact ⟨_, rfl⟩

/-- **A whole scan** offers every candidate in order, and fails at a vector of another length. -/
theorem foldlM_scanStep (heap : List (Candidate S)) (rows : List Row) (i : ℕ) :
    ((∃ row ∈ rows, WrongLength column query row) ∧ ∃ message,
      ((rows.map Except.ok).zipIdx i).foldlM
        (scanStep sc column query (sc.length query) limit metric) heap =
        .error (.invalidQuery message)) ∨
    ((∀ row ∈ rows, ¬ WrongLength column query row) ∧
      ((rows.map Except.ok).zipIdx i).foldlM
        (scanStep sc column query (sc.length query) limit metric) heap =
        .ok (((rows.zipIdx i).filterMap (candidateOf sc column query metric)).foldl
          (TopK.push Candidate.Le limit) heap)) := by
  induction rows generalizing heap i with
  | nil => exact .inr ⟨by simp, rfl⟩
  | cons row rows ih =>
    rw [List.map_cons, List.zipIdx_cons, List.zipIdx_cons, List.foldlM_cons]
    rcases scanStep_cases sc heap row i with ⟨hwrong, message, hstep⟩ | ⟨hok, hstep⟩
    · refine .inl ⟨⟨row, List.mem_cons_self, hwrong⟩, message, ?_⟩
      rw [hstep]
      rfl
    · rw [hstep, Except.ok_bind]
      have hfold : ∀ cs : List (Candidate S),
          cs.foldl (TopK.push Candidate.Le limit)
            ((candidateOf sc column query metric (row, i)).elim heap
              (TopK.push Candidate.Le limit heap)) =
          ((candidateOf sc column query metric (row, i)).toList ++ cs).foldl
            (TopK.push Candidate.Le limit) heap := by
        intro cs
        cases candidateOf sc column query metric (row, i) <;> rfl
      have hcons : ((row, i) :: rows.zipIdx (i + 1)).filterMap (candidateOf sc column query metric) =
          (candidateOf sc column query metric (row, i)).toList ++
            (rows.zipIdx (i + 1)).filterMap (candidateOf sc column query metric) := by
        rw [List.filterMap_cons]
        cases candidateOf sc column query metric (row, i) <;> rfl
      rcases ih _ (i + 1) with ⟨⟨r, hr, hwrong⟩, message, hrest⟩ | ⟨hall, hrest⟩
      · exact .inl ⟨⟨r, List.mem_cons_of_mem row hr, hwrong⟩, message, hrest⟩
      · refine .inr ⟨List.forall_mem_cons.mpr ⟨hok, hall⟩, ?_⟩
        rw [hrest, hfold, hcons]

/-! ## The order of the candidates -/

omit [LinearOrder S] in
theorem pairwise_seq_candidates (rows : List Row) (i : ℕ) :
    ((rows.zipIdx i).filterMap (candidateOf sc column query metric)).Pairwise
      fun a b ↦ a.seq < b.seq := by
  refine List.pairwise_filterMap.mpr ?_
  have hplaces : (rows.zipIdx i).Pairwise fun a b ↦ a.2 < b.2 := by
    rw [← List.pairwise_map (f := Prod.snd), List.zipIdx_map_snd]
    exact List.pairwise_lt_range'
  refine hplaces.imp fun {a b} hlt c hc d hd ↦ ?_
  obtain ⟨x, -, rfl⟩ := Option.map_eq_some_iff.mp hc
  obtain ⟨y, -, rfl⟩ := Option.map_eq_some_iff.mp hd
  exact hlt

/-- Better or as good. -/
def goodnessLe (a b : Candidate S) : Bool := decide (b.goodness ≤ a.goodness)

/-- **The candidates in order are the stably sorted ones.** -/
theorem insertAll_candidates (rows : List Row) (i : ℕ) :
    TopK.insertAll Candidate.Le []
        ((rows.zipIdx i).filterMap (candidateOf sc column query metric)) =
      ((rows.zipIdx i).filterMap (candidateOf sc column query metric)).mergeSort goodnessLe := by
  have hseq := @pairwise_seq_candidates S sc column query metric rows i
  generalize (rows.zipIdx i).filterMap (candidateOf sc column query metric) = cs at hseq ⊢
  have hperm := TopK.perm_insertAll Candidate.Le [] cs
  rw [List.append_nil] at hperm
  refine @TopK.eq_mergeSort _ goodnessLe ?_ ?_ (fun a b ↦ a.seq < b.seq)
    (fun a b ↦ Nat.lt_asymm) _ _ hseq hperm ?_
  · intro a b c hab hbc
    simp only [goodnessLe, decide_eq_true_eq] at hab hbc ⊢
    exact hbc.trans hab
  · intro a b
    simp only [goodnessLe, Bool.or_eq_true, decide_eq_true_eq]
    exact (le_total _ _).symm
  · have hsorted := TopK.pairwise_insertAll Candidate.Le List.Pairwise.nil cs
    have hdistinct : (TopK.insertAll Candidate.Le [] cs).Pairwise fun a b ↦ a.seq ≠ b.seq :=
      (hperm.symm.pairwise_iff fun h ↦ h.symm).mp (hseq.imp fun h ↦ Nat.ne_of_lt h)
    refine (hsorted.and hdistinct).imp fun {a b} ⟨hle, hne⟩ ↦ ?_
    simp only [goodnessLe, decide_eq_true_eq]
    rcases hle with hlt | ⟨heq, hle⟩
    · exact ⟨hlt.le, fun h ↦ absurd hlt (not_lt.mpr h)⟩
    · exact ⟨heq.ge, fun _ ↦ lt_of_le_of_ne hle hne⟩

omit [LinearOrder S] in
theorem map_candidates (rows : List Row) (i : ℕ) :
    ((rows.zipIdx i).filterMap (candidateOf sc column query metric)).map
        (fun c ↦ (c.goodness, (⟨c.row, c.score⟩ : ScoredRow S))) =
      rows.filterMap (scoredRow sc column query metric) := by
  induction rows generalizing i with
  | nil => rfl
  | cons row rows ih =>
    rw [List.zipIdx_cons, List.filterMap_cons, List.filterMap_cons, candidateOf]
    cases scoredRow sc column query metric row with
    | none => exact ih (i + 1)
    | some x => exact congrArg (x :: ·) (ih (i + 1))

theorem foldl_candidates (rows : List Row) :
    (((((rows.zipIdx).filterMap (candidateOf sc column query metric)).foldl
      (TopK.push Candidate.Le limit) []).mergeSort fun a b ↦ decide (Candidate.Le a b)).map
        fun c ↦ (⟨c.row, c.score⟩ : ScoredRow S)) =
      bestRows sc column query metric limit rows := by
  have hkept := TopK.foldl_push Candidate.Le limit []
    ((rows.zipIdx).filterMap (candidateOf sc column query metric))
  rw [List.take_nil] at hkept
  have hsorted := (TopK.pairwise_insertAll Candidate.Le List.Pairwise.nil
    ((rows.zipIdx).filterMap (candidateOf sc column query metric))).sublist
      (List.take_sublist limit _)
  rw [hkept, List.mergeSort_of_pairwise (hsorted.imp fun h ↦ decide_eq_true h),
    insertAll_candidates, bestRows, ← map_candidates sc rows 0, ← List.map_mergeSort, ← List.map_take,
    List.map_map]
  · rfl
  · exact fun a _ b _ ↦ rfl

/-! ## The whole search -/

theorem exactScan_cases {t : TableStore} {schema : TableSchema} {q : Query} {rows : List Row}
    [Unicode] (hrows : t.matchingRows schema q = .ok (rows.map .ok)) :
    ((∃ row ∈ rows, WrongLength column query row) ∧ ∃ message,
      t.exactScan sc schema column query limit metric q = .error (.invalidQuery message)) ∨
    ((∀ row ∈ rows, ¬ WrongLength column query row) ∧
      t.exactScan sc schema column query limit metric q =
        .ok (bestRows sc column query metric limit rows)) := by
  rw [exactScan, hrows, Except.ok_bind]
  rcases foldlM_scanStep sc [] rows 0 with ⟨hwrong, message, hfold⟩ | ⟨hall, hfold⟩
  · refine .inl ⟨hwrong, message, ?_⟩
    rw [hfold]
    rfl
  · refine .inr ⟨hall, ?_⟩
    rw [hfold, Except.ok_bind, ← foldl_candidates]
    rfl

/-- The room for the candidates is found, or asking for it panics. -/
theorem reserveHeap_cases (size limit : ℕ) :
    ((limit + 1 < 2 ^ 64 ∧ (limit + 1) * size < 2 ^ 63) ∧ reserveHeap size limit = .ok ()) ∨
    (¬ (limit + 1 < 2 ^ 64 ∧ (limit + 1) * size < 2 ^ 63) ∧
      ∃ message, reserveHeap size limit = .error (.panic message)) := by
  by_cases hsum : limit + 1 < 2 ^ 64
  · by_cases hroom : (limit + 1) * size < 2 ^ 63
    · refine .inl ⟨⟨hsum, hroom⟩, ?_⟩
      rw [reserveHeap, checkedAdd, if_pos hsum, Except.ok_bind]
      exact Except.guardOr_eq_ok.mpr hroom
    · refine .inr ⟨fun h ↦ hroom h.2, ?_⟩
      rw [reserveHeap, checkedAdd, if_pos hsum, Except.ok_bind, Except.guardOr, if_neg hroom]
      exact ⟨_, rfl⟩
  · refine .inr ⟨fun h ↦ hsum h.1, ?_⟩
    rw [reserveHeap, checkedAdd, if_neg hsum]
    exact ⟨_, rfl⟩

section

variable [Unicode] {t : TableStore} {schema : TableSchema} {expr : Option Expr}
  {filter : Option Query}

omit [Unicode] in
/-- A panic is neither an error nor an answer. -/
theorem not_isTopK_panic (limit : ℕ) (rows : List Row) (message : String) :
    ¬ IsTopK sc column query metric limit rows (.error (.panic message)) := by
  intro h
  by_cases hwrong : ∃ row ∈ reached limit rows, WrongLength column query row
  · obtain ⟨e, he, hne⟩ := h.refuses.mpr hwrong
    exact hne message (Except.error.inj he).symm
  · have hok := h.returns fun row hrow hw ↦ hwrong ⟨row, hrow, hw⟩
    cases hok

/-- **Exact search is top-k, as long as the heap can be reserved.** -/
theorem searchVectorSized_isTopK_iff {rows : List Row} (size limit : ℕ)
    (options : VectorSearchOptions) (hcolumn : checkVectorColumn schema column = .ok ())
    (hne : query ≠ []) (hfilter : validatedFilter schema expr = .ok filter)
    (hpath : options.exact = true ∨
      t.searchIn sc g schema column query limit metric filter options.efSearch = .ok none)
    (hrows : t.matchingRows schema (filter.getD {}) = .ok (rows.map .ok)) :
    IsTopK sc column query metric limit rows
        (t.searchVectorSized sc g size schema column query limit metric expr options) ↔
      limit = 0 ∨ (limit + 1 < 2 ^ 64 ∧ (limit + 1) * size < 2 ^ 63) := by
  rw [searchVectorSized_eq sc g size limit options hcolumn hne hfilter hpath]
  by_cases hzero : limit = 0
  · subst hzero
    refine iff_of_true ⟨?_, fun _ ↦ by simp [bestRows]⟩ (.inl rfl)
    simp [Refuses, reached]
  rw [if_neg hzero, or_iff_right hzero]
  have hreached : reached limit rows = rows := if_neg hzero
  rcases reserveHeap_cases size limit with ⟨hfits, hreserve⟩ | ⟨hfits, message, hpanic⟩
  · refine iff_of_true ?_ hfits
    rw [hreserve, Except.ok_bind]
    rcases exactScan_cases sc hrows with ⟨hwrong, message, hscan⟩ | ⟨hall, hscan⟩
    · rw [hscan]
      refine ⟨iff_of_true ⟨_, rfl, by simp⟩ (by rwa [hreached]), fun hnone ↦ ?_⟩
      obtain ⟨row, hrow, hwrong⟩ := hwrong
      exact absurd hwrong (hnone row (by rwa [hreached]))
    · rw [hscan]
      refine ⟨iff_of_false (by simp [Refuses]) ?_, fun _ ↦ rfl⟩
      rintro ⟨row, hrow, hwrong⟩
      exact hall row (by rwa [hreached] at hrow) hwrong
  · rw [hpanic, Except.error_bind]
    exact iff_of_false (not_isTopK_panic sc limit rows message) hfits

end

end TableStore

/-! ## Two vectors -/

namespace RelRun

open TableStore

/-- Two rows as stored. -/
def scannedItems : TableStore :=
  { rows := ((∅ : OrdMap Bytes Properties).insert (Bytes.be 8 (flipSign 1).toNat)
      (item [.int 1, .int 2])).insert (Bytes.be 8 (flipSign 2).toNat) (item [.int 3, .int 4]) }

theorem matchingRows_scannedItems :
    @matchingRows Unicode.ascii scannedItems itemsSchema {} =
      .ok ([⟨.int 1, item [.int 1, .int 2]⟩, ⟨.int 2, item [.int 3, .int 4]⟩].map .ok) := by
  rfl

theorem searchVectorSized_items :
    @IsTopK F64 _ .double "v" [.ofInt 1, .ofInt 0] .dot 1
      [⟨.int 1, item [.int 1, .int 2]⟩, ⟨.int 2, item [.int 3, .int 4]⟩]
      (@searchVectorSized F64 ℕ _ _ .double Ann.flat Unicode.ascii 96 scannedItems itemsSchema "v"
        [.ofInt 1, .ofInt 0] 1 .dot none ⟨true, none⟩) :=
  (@searchVectorSized_isTopK_iff F64 ℕ _ _ .double Ann.flat "v" [.ofInt 1, .ofInt 0] .dot
    Unicode.ascii scannedItems itemsSchema none none
    [⟨.int 1, item [.int 1, .int 2]⟩, ⟨.int 2, item [.int 3, .int 4]⟩] 96 1 ⟨true, none⟩ rfl
    (by simp) rfl (.inl rfl) matchingRows_scannedItems).mpr (.inr (by decide))

/-- The best of as many rows as a word can count. -/
theorem not_isTopK_items :
    ¬ @IsTopK F64 _ .double "v" [.ofInt 1, .ofInt 0] .dot (2 ^ 64 - 2)
      [⟨.int 1, item [.int 1, .int 2]⟩, ⟨.int 2, item [.int 3, .int 4]⟩]
      (@searchVectorSized F64 ℕ _ _ .double Ann.flat Unicode.ascii 96 scannedItems itemsSchema "v"
        [.ofInt 1, .ofInt 0] (2 ^ 64 - 2) .dot none ⟨true, none⟩) := by
  rw [@searchVectorSized_eq F64 ℕ _ _ .double Ann.flat Unicode.ascii scannedItems itemsSchema "v" .dot
    none [.ofInt 1, .ofInt 0] none 96 (2 ^ 64 - 2) ⟨true, none⟩ rfl (by simp) rfl (.inl rfl),
    if_neg (by decide)]
  rcases reserveHeap_cases 96 (2 ^ 64 - 2) with ⟨hfits, -⟩ | ⟨-, message, hpanic⟩
  · exact absurd hfits (by decide)
  · rw [hpanic, Except.error_bind]
    exact not_isTopK_panic _ _ _ _

end RelRun
