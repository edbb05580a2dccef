import Bkndb.Basic.Utf8
import Bkndb.Relational.Consistent
import Bkndb.Relational.FulltextMirror
import Bkndb.Relational.Search
import Mathlib.Data.List.DropRight

/-!
# Full-text search

BM25-ranked search over a full-text index (`search_text_in` of `relational/search/fulltext.rs`). Each
query term is expanded by a scan of the postings; what a row has matched so far is kept in a mask of
64 bits, the terms from the 64th on sharing the last one.

The terms sharing a bit are the weakness: a row that has matched one of them counts as having matched
them all. The search is exact unless every word is asked for and some row gains from that.

## Scores

The scores are those of the source, computed with the same operations in the same order. Nothing is
proved about their values except that they rank the rows; the results are about which rows are
found.

## Main results

* `mem_queryTerms`: the terms a search works with are those of the query.
* `searchTextIn_found`: what a search finds, whatever the limit.
* `searchTextIn_exact_iff`: it finds what is wanted exactly when no row is overcounted.
* `searchTextIn_not_exact`: a row with 64 of 65 words, found by a search for all of them.
-/

open PropValue

/-! ## The query -/

/-- `str::split_whitespace`. -/
def splitWhitespace (s : String) : List (List Char) :=
  (s.toList.splitOnP isWhitespace).filter (· ≠ [])

/-- `f64::max`: a NaN gives way. -/
def F64.max (x y : F64) : F64 :=
  if x.isNaN then y else if y.isNaN then x else if x.rank < y.rank then y else x

namespace TableStore

/-- A term of a query: its text, and whether it is a prefix. -/
abbrev QueryTerm := String × Bool

section Query

variable [Unicode]

/-- The terms of one word: its tokens, the last of them a prefix when the word ends in `*`. -/
def wordTerms (word : List Char) : List QueryTerm :=
  let isPfx := word.getLast? = some '*'
  let tokens := tokenize (String.ofList (word.rdropWhile (· = '*')))
  tokens.zipIdx.map fun e ↦ (e.1, isPfx && e.2 + 1 == tokens.length)

/-- Add a term unless it is there. -/
def pushTerm (terms : List QueryTerm) (entry : QueryTerm) : List QueryTerm :=
  if entry ∈ terms then terms else terms ++ [entry]

/-- The distinct terms of a query, in order. -/
def queryTerms (query : String) : List QueryTerm :=
  ((splitWhitespace query).flatMap wordTerms).foldl pushTerm []

end Query

/-! ## Matching -/

/-- What a search knows of the documents: their number and average length, and the logarithm. -/
structure Corpus where
  docs : ℕ
  avgdl : F64
  ln : F64 → F64

/-- What the rows found so far have: their score, and a mask of the terms they matched. -/
abbrev Hits := OrdMap Bytes (F64 × BitVec 64)

/-- `avgdl`, at least one. -/
def averageLength (docs total : ℕ) : F64 :=
  if docs = 0 then .ofInt 1 else F64.max ((IeeeFloat.ofInt total).div (.ofInt docs)) (.ofInt 1)

/-- `BM25_K1`, 1.2. -/
def bm25K1 : F64 := ⟨0x3FF3333333333333⟩

/-- `BM25_B`, 0.75. -/
def bm25B : F64 := ⟨0x3FE8000000000000⟩

/-- One half. -/
def half : F64 := ⟨0x3FE0000000000000⟩

/-- How much a term is worth that `df` documents have. -/
def Corpus.idf (corpus : Corpus) (df : ℕ) : F64 :=
  let df : F64 := .ofInt df
  corpus.ln <| (IeeeFloat.ofInt 1).add <|
    (((IeeeFloat.ofInt corpus.docs).add df.neg).add half).div (df.add half)

/-- What a term adds to the score of a document of length `dl` that has it `tf` times. -/
def Corpus.score (corpus : Corpus) (idf : F64) (tf : ℕ) (dl : F64) : F64 :=
  let tf : F64 := .ofInt tf
  ((idf.mul tf).mul (bm25K1.add (.ofInt 1))).div <| tf.add <| bm25K1.mul <|
    ((IeeeFloat.ofInt 1).add bm25B.neg).add ((bm25B.mul dl).div corpus.avgdl)

/-- The term and the row of a posting, apart at the first NUL byte. -/
def splitPosting (key : Bytes) : Option (Bytes × Bytes) :=
  if 0 ∈ key then some (key.takeWhile (· ≠ 0), (key.dropWhile (· ≠ 0)).tail) else none

/-- File one posting under its term. -/
def groupPosting (byTerm : OrdMap Bytes (List (Bytes × ℕ))) (e : Bytes × ℕ) :
    Except BknError (OrdMap Bytes (List (Bytes × ℕ))) := do
  let (term, pk) ← .ofOption (.corruption "malformed full-text posting") (splitPosting e.1)
  return byTerm.insert term ((byTerm.get? term).getD [] ++ [(pk, e.2)])

/-- The bit of the `i`-th term. -/
def termBit (i : ℕ) : BitVec 64 := 1#64 <<< min i 63

/-- Count one posting of the `i`-th term. A document's length is read once in the source and kept. -/
def addPosting (t : TableStore) (column : String) (corpus : Corpus) (i : ℕ) (idf : F64) (hits : Hits)
    (e : Bytes × ℕ) : Hits :=
  let dl := ((t.docs column).get? e.1).elim corpus.avgdl fun n ↦ .ofInt n
  let (score, mask) := (hits.get? e.1).getD (.ofInt 0, 0)
  hits.insert e.1 (score.add (corpus.score idf e.2 dl), mask ||| termBit i)

/-- Count the postings of one indexed term. -/
def addPostings (t : TableStore) (column : String) (corpus : Corpus) (i : ℕ) (hits : Hits)
    (e : Bytes × List (Bytes × ℕ)) : Hits :=
  e.2.foldl (t.addPosting column corpus i (corpus.idf e.2.length)) hits

/-- The postings of a query term: those of the term, or of every term it is a prefix of. -/
def termPostings (t : TableStore) (column : String) (term : QueryTerm) : List (Bytes × ℕ) :=
  let lo := if term.2 then term.1.utf8 else postingsKey term.1 []
  (t.postings column).range (.included lo) (.stop (Bytes.upperBound lo))

/-- Match one query term. -/
def matchTerm (t : TableStore) (column : String) (corpus : Corpus) (hits : Hits)
    (e : QueryTerm × ℕ) : Except BknError Hits := do
  let byTerm ← (t.termPostings column e.1).foldlM groupPosting ∅
  return byTerm.entries.foldl (t.addPostings column corpus e.2) hits

/-- The mask of a row that matched every term. -/
def allMask (n : ℕ) : BitVec 64 := if 64 ≤ n then .allOnes 64 else (1#64 <<< n) - 1#64

/-- Best first, ties by key. -/
def rankCmp (a b : Bytes × F64) : Ordering := (b.2.totalCmp a.2).then (Bytes.cmp a.1 b.1)

/-- The rows that qualify, ranked. -/
def rankHits (hits : Hits) (terms : ℕ) (matchAll : Bool) : List (Bytes × F64) :=
  let kept := hits.entries.filter fun e ↦ !matchAll || e.2.2 == allMask terms
  (kept.map fun e ↦ (e.1, e.2.1)).mergeSort fun a b ↦ (rankCmp a b).isLE

variable [Unicode]

/-- Fetch the ranked rows, keeping those that pass the filter until there are enough. -/
def fetchHits (t : TableStore) (schema : TableSchema) (kind : ColumnKind) (filter : Option Query)
    (limit : ℕ) : List (ScoredRow F64) → List (Bytes × F64) → Except BknError (List (ScoredRow F64))
  | out, [] => .ok out
  | out, (pk, score) :: rest => do
    let pk ← decodeSortable kind pk
    match t.getIn pk with
    | none => fetchHits t schema kind filter limit out rest
    | some row =>
      if passes schema filter row then
        let out := out ++ [⟨row, score⟩]
        if limit ≤ out.length then return out
        else fetchHits t schema kind filter limit out rest
      else fetchHits t schema kind filter limit out rest

/-- BM25-ranked rows whose `column` matches `query`. -/
def searchTextIn (ln : F64 → F64) (t : TableStore) (schema : TableSchema) (column query : String)
    (limit : ℕ) (matchAll : Bool) (filter : Option Expr) : Except BknError (List (ScoredRow F64)) := do
  .guardOr (column ∈ t.ftsColumns) (.invalidQuery
    s!"'{schema.name}.{column}' has no full-text index (create one first)")
  let filter ← validatedFilter schema filter
  let terms := queryTerms query
  if terms = [] ∨ limit = 0 then return []
  let (docs, total) := t.loadStats column
  let hits ← terms.zipIdx.foldlM (t.matchTerm column ⟨docs, averageLength docs total, ln⟩) ∅
  let pk ← schema.primaryKeyColumn
  t.fetchHits schema pk.kind filter limit [] (rankHits hits terms.length matchAll)

/-! ## What a query asks for -/

/-- The tokens of a word without its stars. -/
def wordTokens (word : List Char) : List String :=
  tokenize (String.ofList (word.rdropWhile (· = '*')))

/-- The terms of a query are the tokens of its words; the last one of a word ending in `*` is a
prefix. -/
def IsQueryTerm (query : String) (term : QueryTerm) : Prop :=
  ∃ word ∈ splitWhitespace query, ∃ i, (wordTokens word)[i]? = some term.1 ∧
    (term.2 = true ↔ word.getLast? = some '*' ∧ i + 1 = (wordTokens word).length)

/-- A token of a text is what a term asks for. -/
def TokenMatches (term : QueryTerm) (token : String) : Prop :=
  if term.2 then term.1.utf8 <+: token.utf8 else token = term.1

/-- A text contains a term. -/
def ContainsTerm (text : String) (term : QueryTerm) : Prop :=
  ∃ token ∈ tokenize text, TokenMatches term token

/-- A row passes the filter and has what the query asks for. -/
def Wanted (schema : TableSchema) (column query : String) (matchAll : Bool) (filter : Option Expr)
    (row : Row) : Prop :=
  (∀ f ∈ filter, Expr.eval schema row f = true) ∧
    ∃ text, textOf (some row.values) column = some text ∧
      if matchAll then ∀ term, IsQueryTerm query term → ContainsTerm text term
      else ∃ term, IsQueryTerm query term ∧ ContainsTerm text term

/-- A row passes the filter and gains from the shared bit: it has the first 63 terms and one of the
others, but not all of those. -/
def Overcounted (schema : TableSchema) (column query : String) (filter : Option Expr) (row : Row) :
    Prop :=
  (∀ f ∈ filter, Expr.eval schema row f = true) ∧
    ∃ text, textOf (some row.values) column = some text ∧
      (∀ term ∈ (queryTerms query).take 63, ContainsTerm text term) ∧
      (∃ term ∈ (queryTerms query).drop 63, ContainsTerm text term) ∧
      ∃ term ∈ (queryTerms query).drop 63, ¬ContainsTerm text term

omit [Unicode] in
theorem mem_foldl_pushTerm {l terms : List QueryTerm} {term : QueryTerm} :
    term ∈ l.foldl pushTerm terms ↔ term ∈ terms ∨ term ∈ l := by
  induction l generalizing terms with
  | nil => simp
  | cons e l ih =>
    rw [List.foldl_cons, ih, pushTerm]
    split
    · rename_i he
      constructor
      · rintro (h | h)
        · exact .inl h
        · exact .inr (List.mem_cons_of_mem _ h)
      · rintro (h | h)
        · exact .inl h
        · rcases List.mem_cons.mp h with rfl | h
          · exact .inl he
          · exact .inr h
    · rw [List.mem_append, List.mem_singleton, List.mem_cons, or_assoc]

omit [Unicode] in
theorem foldl_pushTerm_of_nodup {l terms : List QueryTerm} (h : (terms ++ l).Nodup) :
    l.foldl pushTerm terms = terms ++ l := by
  induction l generalizing terms with
  | nil => simp
  | cons e l ih =>
    have hnot : e ∉ terms := fun he ↦
      (List.nodup_append.mp h).2.2 e he e List.mem_cons_self rfl
    rw [List.append_cons] at h
    rw [List.foldl_cons, pushTerm, if_neg hnot, ih h, ← List.append_cons]

theorem mem_wordTerms {word : List Char} {term : QueryTerm} :
    term ∈ wordTerms word ↔ ∃ i, (wordTokens word)[i]? = some term.1 ∧
      (term.2 = true ↔ word.getLast? = some '*' ∧ i + 1 = (wordTokens word).length) := by
  obtain ⟨text, isPfx⟩ := term
  rw [wordTerms, List.mem_map]
  constructor
  · rintro ⟨⟨token, i⟩, he, heq⟩
    obtain ⟨rfl, rfl⟩ := Prod.mk.inj heq
    refine ⟨i, List.mem_zipIdx_iff_getElem?.mp he, ?_⟩
    simp [wordTokens]
  · rintro ⟨i, hi, hpfx⟩
    refine ⟨(text, i), List.mem_zipIdx_iff_getElem?.mpr hi, Prod.ext rfl ?_⟩
    rw [Bool.eq_iff_iff, hpfx]
    simp [wordTokens]

/-- **The terms a search works with** are those of the query. -/
theorem mem_queryTerms {query : String} {term : QueryTerm} :
    term ∈ queryTerms query ↔ IsQueryTerm query term := by
  rw [queryTerms, mem_foldl_pushTerm]
  simp [IsQueryTerm, mem_wordTerms]

theorem zero_notMem_of_mem_queryTerms {query : String} {term : QueryTerm}
    (h : term ∈ queryTerms query) : 0 ∉ term.1.utf8 := by
  obtain ⟨word, -, i, hi, -⟩ := mem_queryTerms.mp h
  exact zero_notMem_of_mem_tokenize (List.mem_of_getElem? hi)

/-! ## The postings of a term -/

variable {t : TableStore} {schema : TableSchema} {column : String} {texts : OrdMap Bytes String}

omit [Unicode] in
theorem splitPosting_postingsKey {token : String} (h : 0 ∉ token.utf8) (k : Bytes) :
    splitPosting (postingsKey token k) = some (token.utf8, k) := by
  have htake : ∀ b ∈ token.utf8, decide (b ≠ 0) = true := fun b hb ↦
    decide_eq_true fun h0 ↦ h (h0 ▸ hb)
  rw [splitPosting, postingsKey, if_pos (by simp), List.takeWhile_append_of_pos htake,
    List.dropWhile_append_of_pos htake]
  simp

theorem mem_termPostings (hm : t.Mirrors column texts) {term : QueryTerm} (h : 0 ∉ term.1.utf8)
    {key : Bytes} {n : ℕ} : (key, n) ∈ t.termPostings column term ↔
      ∃ k text token, texts.get? k = some text ∧ token ∈ tokenize text ∧
        TokenMatches term token ∧ key = postingsKey token k ∧ n = (tokenize text).count token := by
  have hrange : (key, n) ∈ t.termPostings column term ↔ IsPosting texts key n ∧
      (if term.2 then term.1.utf8 else postingsKey term.1 []) <+: key := by
    rw [termPostings, OrdMap.mem_range, hm.postings, Bytes.isPrefix_iff, Bytes.BelowUpper]
    cases Bytes.upperBound (if term.2 then term.1.utf8 else postingsKey term.1 []) <;>
      simp [Bound.stop]
  have hkey : ∀ {token : String} {k : Bytes}, 0 ∉ token.utf8 →
      ((if term.2 then term.1.utf8 else postingsKey term.1 []) <+: postingsKey token k ↔
        TokenMatches term token) := fun {token k} htoken ↦ by
    rw [TokenMatches]
    split
    · exact Bytes.isPrefix_terminated h
    · rw [postingsKey, postingsKey, Bytes.terminated_isPrefix h htoken]
      exact ⟨fun heq ↦ String.utf8_injective heq, fun heq ↦ by rw [heq]⟩
  rw [hrange]
  constructor
  · rintro ⟨⟨k, text, token, hget, htoken, rfl, hn⟩, hpre⟩
    exact ⟨k, text, token, hget, htoken, (hkey (zero_notMem_of_mem_tokenize htoken)).mp hpre, rfl, hn⟩
  · rintro ⟨k, text, token, hget, htoken, hmatch, rfl, hn⟩
    exact ⟨⟨k, text, token, hget, htoken, rfl, hn⟩,
      (hkey (zero_notMem_of_mem_tokenize htoken)).mpr hmatch⟩

omit [Unicode] in
theorem foldlM_groupPosting {l : List (Bytes × ℕ)} (h : ∀ e ∈ l, (splitPosting e.1).isSome = true) :
    ∃ byTerm, l.foldlM groupPosting ∅ = .ok byTerm ∧ ∀ k,
      (∃ group ∈ byTerm.entries, ∃ e ∈ group.2, e.1 = k) ↔
        ∃ e ∈ l, ∃ token, splitPosting e.1 = some (token, k) := by
  refine Except.foldlM_exists
    (fun (done : List (Bytes × ℕ)) (byTerm : OrdMap Bytes (List (Bytes × ℕ))) ↦ ∀ k,
      (∃ group ∈ byTerm.entries, ∃ e ∈ group.2, e.1 = k) ↔
        ∃ e ∈ done, ∃ token, splitPosting e.1 = some (token, k)) (by simp)
    fun done e byTerm hpre hP ↦ ?_
  obtain ⟨⟨token, pk⟩, hsplit⟩ := Option.isSome_iff_exists.mp (h e (hpre.subset (by simp)))
  refine ⟨byTerm.insert token ((byTerm.get? token).getD [] ++ [(pk, e.2)]),
    by rw [groupPosting, hsplit]; rfl, fun k ↦ ?_⟩
  have hlast : (∃ x ∈ done ++ [e], ∃ token, splitPosting x.1 = some (token, k)) ↔
      (∃ x ∈ done, ∃ token, splitPosting x.1 = some (token, k)) ∨ pk = k := by
    simp [or_and_right, exists_or, hsplit]
  rw [hlast, ← hP]
  constructor
  · rintro ⟨⟨term, group⟩, hgroup, x, hx, rfl⟩
    rw [OrdMap.mem_entries, OrdMap.get?_insert] at hgroup
    split at hgroup
    · obtain rfl := Option.some.inj hgroup
      rcases List.mem_append.mp hx with hx | hx
      · cases hget : byTerm.get? token with
        | none => simp [hget] at hx
        | some group =>
          exact .inl ⟨(token, group), OrdMap.mem_entries.mpr hget, x, by simpa [hget] using hx, rfl⟩
      · rw [List.mem_singleton.mp hx]
        exact .inr rfl
    · exact .inl ⟨(term, group), OrdMap.mem_entries.mpr hgroup, x, hx, rfl⟩
  · rintro (⟨⟨term, group⟩, hgroup, x, hx, rfl⟩ | rfl)
    · rw [OrdMap.mem_entries] at hgroup
      by_cases hterm : term = token
      · subst hterm
        refine ⟨(term, group ++ [(pk, e.2)]), ?_, x, List.mem_append_left _ hx, rfl⟩
        rw [OrdMap.mem_entries, OrdMap.get?_insert_self, hgroup, Option.getD_some]
      · refine ⟨(term, group), ?_, x, hx, rfl⟩
        rw [OrdMap.mem_entries, OrdMap.get?_insert_of_ne _ _ hterm, hgroup]
    · exact ⟨(token, _), OrdMap.mem_entries.mpr (OrdMap.get?_insert_self ..), (pk, e.2), by simp, rfl⟩

/-! ## Masks

A bit is set for a row when its term was matched. After the last term the mask says, bit by bit,
what the row has; the last bit speaks for all the terms that share it. -/

/-- The mask of a row; none of its bits is set before the row is found. -/
def maskOf (hits : Hits) (k : Bytes) : BitVec 64 := (hits.get? k).elim 0 Prod.snd

/-- The `i`-th term was counted for the rows with `P`: they are found, and their bit of the term is
set. -/
structure Marks (i : ℕ) (P : Bytes → Prop) (hits hits' : Hits) : Prop where
  contains : ∀ k, hits'.contains k = true ↔ hits.contains k = true ∨ P k
  bits : ∀ k j, (maskOf hits' k).getLsbD j = true ↔
    (maskOf hits k).getLsbD j = true ∨ P k ∧ j = min i 63

omit [Unicode] in
theorem getLsbD_termBit (i j : ℕ) : (termBit i).getLsbD j = decide (j = min i 63) := by
  rw [termBit, ← BitVec.twoPow_eq, BitVec.getLsbD_twoPow]
  have hlt : min i 63 < 64 := by omega
  simp [hlt, eq_comm]

omit [Unicode] in
theorem marks_addPosting (t : TableStore) (column : String) (corpus : Corpus) (i : ℕ) (idf : F64)
    (hits : Hits) (e : Bytes × ℕ) :
    Marks i (e.1 = ·) hits (t.addPosting column corpus i idf hits e) := by
  refine ⟨fun k ↦ ?_, fun k j ↦ ?_⟩
  · rw [addPosting, OrdMap.contains, OrdMap.get?_insert, OrdMap.contains]
    split
    · simp [*]
    · rename_i hk
      simp [Ne.symm hk]
  · rw [addPosting, maskOf, OrdMap.get?_insert]
    split
    · rename_i hk
      subst hk
      simp only [Option.elim_some, BitVec.getLsbD_or, getLsbD_termBit, maskOf]
      cases hget : hits.get? e.1 <;> simp
    · rename_i hk
      simp [maskOf, Ne.symm hk]

omit [Unicode] in
theorem Marks.foldl {α : Type} {f : Hits → α → Hits} {i : ℕ} {P : α → Bytes → Prop}
    (h : ∀ hits a, Marks i (P a) hits (f hits a)) (l : List α) (hits : Hits) :
    Marks i (fun k ↦ ∃ a ∈ l, P a k) hits (l.foldl f hits) := by
  induction l generalizing hits with
  | nil => exact ⟨by simp, by simp⟩
  | cons a l ih =>
    refine ⟨fun k ↦ ?_, fun k j ↦ ?_⟩
    · rw [List.foldl_cons, (ih _).contains, (h hits a).contains, or_assoc, List.exists_mem_cons_iff]
    · rw [List.foldl_cons, (ih _).bits, (h hits a).bits, or_assoc, ← or_and_right,
        List.exists_mem_cons_iff]

/-- A row whose text contains a term. -/
def Matched (texts : OrdMap Bytes String) (term : QueryTerm) (k : Bytes) : Prop :=
  ∃ text, texts.get? k = some text ∧ ContainsTerm text term

/-- **Matching a term marks the rows whose text contains it.** -/
theorem matchTerm_spec (hm : t.Mirrors column texts) (corpus : Corpus) {term : QueryTerm}
    (h : 0 ∉ term.1.utf8) (i : ℕ) (hits : Hits) :
    ∃ hits', t.matchTerm column corpus hits (term, i) = .ok hits' ∧
      Marks i (Matched texts term) hits hits' := by
  have hsplit : ∀ e ∈ t.termPostings column term, ∃ token k text, e.1 = postingsKey token k ∧
      splitPosting e.1 = some (token.utf8, k) ∧ texts.get? k = some text ∧
        token ∈ tokenize text ∧ TokenMatches term token := fun e he ↦ by
    obtain ⟨k, text, token, hget, htoken, hmatch, hkey, -⟩ := (mem_termPostings hm h).mp he
    exact ⟨token, k, text, hkey,
      hkey ▸ splitPosting_postingsKey (zero_notMem_of_mem_tokenize htoken) k, hget, htoken, hmatch⟩
  obtain ⟨byTerm, hgroup, hrows⟩ := foldlM_groupPosting fun e he ↦ by
    obtain ⟨_, _, _, -, hs, -⟩ := hsplit e he
    rw [hs]
    rfl
  refine ⟨_, by rw [matchTerm, hgroup]; rfl, ?_⟩
  have hmarks := Marks.foldl (i := i) (fun hits (group : Bytes × List (Bytes × ℕ)) ↦
    Marks.foldl (marks_addPosting t column corpus i (corpus.idf group.2.length)) group.2 hits)
    byTerm.entries hits
  have hiff : ∀ k, (∃ group ∈ byTerm.entries, ∃ e ∈ group.2, e.1 = k) ↔ Matched texts term k := by
    intro k
    rw [hrows]
    constructor
    · rintro ⟨e, he, token, hs⟩
      obtain ⟨token', k', text, -, hs', hget, htoken, hmatch⟩ := hsplit e he
      rw [hs', Option.some_inj, Prod.mk.injEq] at hs
      exact ⟨text, hs.2 ▸ hget, token', htoken, hmatch⟩
    · rintro ⟨text, hget, token, htoken, hmatch⟩
      exact ⟨(postingsKey token k, _),
        (mem_termPostings hm h).mpr ⟨k, text, token, hget, htoken, hmatch, rfl, rfl⟩, _,
        splitPosting_postingsKey (zero_notMem_of_mem_tokenize htoken) k⟩
  simp only [hiff] at hmarks
  exact hmarks

/-- What the terms counted so far say of every row. -/
structure Tracked (texts : OrdMap Bytes String) (done : List (QueryTerm × ℕ)) (hits : Hits) :
    Prop where
  contains : ∀ k, hits.contains k = true ↔ ∃ e ∈ done, Matched texts e.1 k
  bits : ∀ k j, (maskOf hits k).getLsbD j = true ↔
    ∃ e ∈ done, Matched texts e.1 k ∧ j = min e.2 63

/-- **The masks after every term.** -/
theorem foldlM_matchTerm (hm : t.Mirrors column texts) (corpus : Corpus)
    {terms : List (QueryTerm × ℕ)} (h : ∀ e ∈ terms, 0 ∉ e.1.1.utf8) :
    ∃ hits, terms.foldlM (t.matchTerm column corpus) ∅ = .ok hits ∧ Tracked texts terms hits := by
  refine Except.foldlM_exists (Tracked texts) ⟨by simp, by simp [maskOf]⟩
    fun done e hits hpre hP ↦ ?_
  obtain ⟨hits', hmatch, hmarks⟩ := matchTerm_spec hm corpus (h e (hpre.subset (by simp))) e.2 hits
  refine ⟨hits', hmatch, fun k ↦ ?_, fun k j ↦ ?_⟩
  · rw [hmarks.contains, hP.contains]
    simp [or_and_right, exists_or]
  · rw [hmarks.bits, hP.bits]
    simp [or_and_right, exists_or]

omit [Unicode] in
theorem getLsbD_allMask (n j : ℕ) : (allMask n).getLsbD j = decide (j < 64 ∧ j < n) := by
  rw [allMask]
  split
  · rename_i hn
    rw [BitVec.getLsbD_allOnes]
    exact decide_eq_decide.mpr ⟨fun h ↦ ⟨h, by omega⟩, And.left⟩
  · rename_i hn
    have hval : ((1#64 <<< n) - 1#64).toNat = 2 ^ n - 1 := by
      have hlt : 2 ^ n < 2 ^ 64 := Nat.pow_lt_pow_right (by omega) (by omega)
      have hpos : 0 < 2 ^ n := Nat.two_pow_pos n
      rw [BitVec.toNat_sub, ← BitVec.twoPow_eq, BitVec.toNat_twoPow_of_lt (by omega)]
      rw [show (1#64).toNat = 1 from rfl]
      omega
    rw [BitVec.getLsbD, hval, Nat.testBit_two_pow_sub_one]
    exact decide_eq_decide.mpr ⟨fun h ↦ ⟨by omega, h⟩, And.right⟩

/-- **What the mask of every term says**: the first 63 terms are matched, and one of the others if
there are others. -/
theorem Tracked.mask_eq_iff {terms : List QueryTerm} {hits : Hits}
    (h : Tracked texts terms.zipIdx hits) (k : Bytes) :
    maskOf hits k = allMask terms.length ↔ (∀ term ∈ terms.take 63, Matched texts term k) ∧
      (terms.drop 63 = [] ∨ ∃ term ∈ terms.drop 63, Matched texts term k) := by
  have hmem : ∀ {term : QueryTerm} {i : ℕ}, (term, i) ∈ terms.zipIdx ↔ terms[i]? = some term :=
    List.mem_zipIdx_iff_getElem?
  -- only the bits of terms are ever set, so those have to be
  have hbits : maskOf hits k = allMask terms.length ↔ ∀ j < 64, j < terms.length →
      ∃ e ∈ terms.zipIdx, Matched texts e.1 k ∧ j = min e.2 63 := by
    constructor
    · intro heq j hj hn
      rw [← h.bits, heq, getLsbD_allMask]
      exact decide_eq_true ⟨hj, hn⟩
    · intro hall
      refine BitVec.eq_of_getLsbD_eq fun j hj ↦ ?_
      rw [Bool.eq_iff_iff, getLsbD_allMask, decide_eq_true_iff]
      constructor
      · intro hbit
        obtain ⟨⟨term, i⟩, he, -, rfl⟩ := (h.bits k j).mp hbit
        obtain ⟨hi, -⟩ := List.getElem?_eq_some_iff.mp (hmem.mp he)
        dsimp only at hj ⊢
        omega
      · rintro ⟨-, hn⟩
        exact (h.bits k j).mpr (hall j hj hn)
  rw [hbits]
  constructor
  · intro hall
    refine ⟨fun term hterm ↦ ?_, or_iff_not_imp_left.mpr fun hne ↦ ?_⟩
    · obtain ⟨i, hi, rfl⟩ := List.mem_take_iff_getElem.mp hterm
      obtain ⟨⟨term, i'⟩, he, hmatched, heq⟩ := hall i (by omega) (by omega)
      obtain rfl : i' = i := by
        dsimp only at heq
        omega
      rw [hmem, List.getElem?_eq_getElem (by omega), Option.some_inj] at he
      exact he ▸ hmatched
    · have hlen : 63 < terms.length := by simpa using hne
      obtain ⟨⟨term, i⟩, he, hmatched, heq⟩ := hall 63 (by omega) hlen
      refine ⟨term, List.mem_iff_getElem?.mpr ⟨i - 63, ?_⟩, hmatched⟩
      dsimp only at heq
      rw [List.getElem?_drop, ← hmem.mp he]
      congr 1
      omega
  · rintro ⟨hfirst, hlast⟩ j hj hn
    rcases Nat.lt_or_ge j 63 with hj | hj
    · refine ⟨(terms[j], j), hmem.mpr (List.getElem?_eq_getElem hn), hfirst _ ?_, by dsimp only; omega⟩
      exact List.mem_take_iff_getElem.mpr ⟨j, by omega, rfl⟩
    · rcases hlast with hnil | ⟨term, hterm, hmatched⟩
      · have := congrArg List.length hnil
        rw [List.length_drop, List.length_nil] at this
        omega
      · obtain ⟨i, hi⟩ := List.mem_iff_getElem?.mp hterm
        rw [List.getElem?_drop] at hi
        exact ⟨(term, 63 + i), hmem.mpr hi, hmatched, by dsimp only; omega⟩

/-! ## Ranking and fetching

Ranking sorts all candidates, and fetching goes through them in that order. A limit therefore cuts
the list and does not change it. -/

omit [Unicode] in
theorem mem_rankHits {hits : Hits} {n : ℕ} {matchAll : Bool} {k : Bytes} {score : F64} :
    (k, score) ∈ rankHits hits n matchAll ↔ ∃ mask, hits.get? k = some (score, mask) ∧
      (matchAll = true → mask = allMask n) := by
  rw [rankHits, List.mem_mergeSort, List.mem_map]
  constructor
  · rintro ⟨⟨k', score', mask⟩, he, heq⟩
    obtain ⟨rfl, rfl⟩ := Prod.mk.inj heq
    obtain ⟨he, hmask⟩ := List.mem_filter.mp he
    refine ⟨mask, OrdMap.mem_entries.mp he, fun hall ↦ ?_⟩
    simpa [hall] using hmask
  · rintro ⟨mask, hget, hmask⟩
    refine ⟨(k, score, mask), List.mem_filter.mpr ⟨OrdMap.mem_entries.mpr hget, ?_⟩, rfl⟩
    cases matchAll
    · rfl
    · simpa using hmask rfl

omit [Unicode] in
theorem nodup_rankHits (hits : Hits) (n : ℕ) (matchAll : Bool) :
    ((rankHits hits n matchAll).map Prod.fst).Nodup := by
  rw [rankHits, ((List.mergeSort_perm _ _).map Prod.fst).nodup_iff, List.map_map]
  exact (List.filter_sublist.map _).nodup hits.keys_nodup

/-- **The rows ranked** have a term and, when every word is asked for, the full mask. -/
theorem Tracked.exists_mem_rankHits {terms : List QueryTerm} {hits : Hits}
    (h : Tracked texts terms.zipIdx hits) {matchAll : Bool} {k : Bytes} :
    (∃ score, (k, score) ∈ rankHits hits terms.length matchAll) ↔
      (∃ term ∈ terms, Matched texts term k) ∧
        (matchAll = true → (∀ term ∈ terms.take 63, Matched texts term k) ∧
          (terms.drop 63 = [] ∨ ∃ term ∈ terms.drop 63, Matched texts term k)) := by
  have hcontains : hits.contains k = true ↔ ∃ term ∈ terms, Matched texts term k := by
    rw [h.contains]
    constructor
    · rintro ⟨e, he, hk⟩
      exact ⟨e.1, List.mem_of_getElem? (List.mem_zipIdx_iff_getElem?.mp he), hk⟩
    · rintro ⟨term, hterm, hk⟩
      obtain ⟨i, hi⟩ := List.mem_iff_getElem?.mp hterm
      exact ⟨(term, i), List.mem_zipIdx_iff_getElem?.mpr hi, hk⟩
  simp only [mem_rankHits, ← hcontains, ← h.mask_eq_iff, maskOf, OrdMap.contains]
  cases hits.get? k with
  | none => simp
  | some e => simp [Prod.ext_iff]

/-- The hit of a ranked row. -/
def HitOf (t : TableStore) (schema : TableSchema) (e : Bytes × F64) (hit : ScoredRow F64) : Prop :=
  t.HasRow schema hit.row ∧ sortableKey hit.row.pk = some e.1 ∧ hit.score = e.2

/-- Fetching stops when there are enough; the rows that do not pass are left out. -/
theorem fetchHits_spec {kind : ColumnKind} (hkind : schema.pkKind = some kind)
    (filter : Option Query) {limit : ℕ} {l : List (Bytes × F64)} {hits out : List (ScoredRow F64)}
    (h : List.Forall₂ (t.HitOf schema) l hits) (hout : out.length < limit) :
    t.fetchHits schema kind filter limit out l =
      .ok (out ++ (hits.filter fun hit ↦ passes schema filter hit.row).take
        (limit - out.length)) := by
  induction h generalizing out with
  | nil => simp [fetchHits]
  | @cons e hit l hits he _ ih =>
    obtain ⟨k, score⟩ := e
    obtain ⟨hrow, hk, rfl⟩ := he
    have hof := hrow.1
    rw [hkind, Option.some_inj] at hof
    rw [fetchHits, hof, decodeSortable_of_sortableKey hk, Except.ok_bind, hrow.getIn, ← hof]
    dsimp only
    by_cases hpass : passes schema filter hit.row = true
    · rw [if_pos hpass, List.filter_cons, if_pos hpass]
      split
      · rename_i hfull
        rw [List.length_append, List.length_singleton] at hfull
        rw [show limit - out.length = 1 by omega, List.take_succ_cons, List.take_zero]
        rfl
      · rename_i hfull
        rw [List.length_append, List.length_singleton] at hfull
        rw [ih (by rw [List.length_append, List.length_singleton]; omega), List.length_append,
          List.length_singleton, show limit - out.length = limit - (out.length + 1) + 1 by omega,
          List.take_succ_cons, List.append_assoc, List.singleton_append]
    · rw [if_neg hpass, List.filter_cons, if_neg hpass, ih hout]

/-! ## Exactness -/

/-- What the search takes a row for: one that has a term of the query and, when every word is asked
for, the first 63 terms and one of the others. -/
def Found (column query : String) (matchAll : Bool) (row : Row) : Prop :=
  ∃ text, textOf (some row.values) column = some text ∧
    (∃ term ∈ queryTerms query, ContainsTerm text term) ∧
    (matchAll = true → (∀ term ∈ (queryTerms query).take 63, ContainsTerm text term) ∧
      ((queryTerms query).drop 63 = [] ∨
        ∃ term ∈ (queryTerms query).drop 63, ContainsTerm text term))

variable {query : String} {matchAll : Bool} {filter : Option Expr}

theorem Overcounted.found {row : Row} (h : Overcounted schema column query filter row)
    (matchAll : Bool) : Found column query matchAll row := by
  obtain ⟨-, text, htext, hfirst, ⟨term, hterm, hcontains⟩, -⟩ := h
  exact ⟨text, htext, ⟨term, List.mem_of_mem_drop hterm, hcontains⟩,
    fun _ ↦ ⟨hfirst, .inr ⟨term, hterm, hcontains⟩⟩⟩

theorem wanted_iff (hquery : queryTerms query ≠ []) {row : Row} :
    Wanted schema column query matchAll filter row ↔
      (∀ f ∈ filter, Expr.eval schema row f = true) ∧ Found column query matchAll row ∧
        ¬(matchAll = true ∧ Overcounted schema column query filter row) := by
  have hsplit : ∀ {term : QueryTerm}, IsQueryTerm query term ↔
      term ∈ (queryTerms query).take 63 ∨ term ∈ (queryTerms query).drop 63 := fun {term} ↦ by
    rw [← List.mem_append, List.take_append_drop, mem_queryTerms]
  cases matchAll with
  | false => simp [Wanted, Found, mem_queryTerms]
  | true =>
    constructor
    · rintro ⟨hpass, text, htext, hall⟩
      rw [if_pos rfl] at hall
      refine ⟨hpass, ⟨text, htext, ?_, fun _ ↦ ⟨fun term h ↦ hall _ (hsplit.mpr (.inl h)), ?_⟩⟩, ?_⟩
      · obtain ⟨term, h⟩ := List.exists_mem_of_ne_nil _ hquery
        exact ⟨term, h, hall _ (mem_queryTerms.mp h)⟩
      · refine or_iff_not_imp_left.mpr fun hne ↦ ?_
        obtain ⟨term, h⟩ := List.exists_mem_of_ne_nil _ hne
        exact ⟨term, h, hall _ (hsplit.mpr (.inr h))⟩
      · rintro ⟨-, -, text', htext', -, -, term, h, hnot⟩
        rw [htext, Option.some_inj] at htext'
        exact hnot (htext' ▸ hall _ (hsplit.mpr (.inr h)))
    · rintro ⟨hpass, ⟨text, htext, -, hmask⟩, hnot⟩
      obtain ⟨hfirst, hlast⟩ := hmask rfl
      refine ⟨hpass, text, htext, ?_⟩
      rw [if_pos rfl]
      intro term hterm
      rcases hsplit.mp hterm with h | h
      · exact hfirst term h
      · have hsome := hlast.resolve_left (List.ne_nil_of_mem h)
        by_contra hcon
        exact hnot ⟨rfl, hpass, text, htext, hfirst, hsome, term, h, hcon⟩

theorem hasRow_of_matched (h : t.RowsKeyed schema) {term : QueryTerm} {k : Bytes}
    (hk : Matched (t.textsOf column) term k) :
    ∃ row, t.HasRow schema row ∧ sortableKey row.pk = some k := by
  obtain ⟨text, htext, -⟩ := hk
  rw [get?_textsOf] at htext
  cases hget : t.rows.get? k with
  | none => simp [hget, textOf] at htext
  | some values =>
    obtain ⟨pk, hpk, hrow⟩ := h k values hget
    exact ⟨⟨pk, values⟩, hrow, hpk⟩

theorem found_iff {row : Row} (h : t.HasRow schema row) {k : Bytes}
    (hk : sortableKey row.pk = some k) : Found column query matchAll row ↔
      (∃ term ∈ queryTerms query, Matched (t.textsOf column) term k) ∧
        (matchAll = true → (∀ term ∈ (queryTerms query).take 63,
            Matched (t.textsOf column) term k) ∧
          ((queryTerms query).drop 63 = [] ∨
            ∃ term ∈ (queryTerms query).drop 63, Matched (t.textsOf column) term k)) := by
  simp only [Found, Matched, get?_textsOf, h.get?_rows hk]
  cases textOf (some row.values) column with
  | none => simp
  | some text => simp

/-- **What a search finds**, whatever the limit. -/
theorem searchTextIn_found (ln : F64 → F64) (hkeyed : t.RowsKeyed schema)
    (hpk : ∃ kind, schema.pkKind = some kind) (hcolumn : column ∈ t.ftsColumns)
    (hm : t.Mirrors column (t.textsOf column)) (hquery : queryTerms query ≠ [])
    (hfilter : ∀ f ∈ filter, Query.checkColumns { filters := [f] } schema = .ok ())
    (matchAll : Bool) :
    ∃ found : List (ScoredRow F64), (found.map ScoredRow.row).Nodup ∧
      (∀ row, row ∈ found.map ScoredRow.row ↔ t.HasRow schema row ∧
        (∀ f ∈ filter, Expr.eval schema row f = true) ∧ Found column query matchAll row) ∧
      ∀ limit, searchTextIn ln t schema column query limit matchAll filter =
        .ok (found.take limit) := by
  obtain ⟨q, hq, hpass⟩ := validatedFilter_spec hfilter
  obtain ⟨kind, hkind⟩ := hpk
  obtain ⟨pk, hpk, hof⟩ := TableSchema.primaryKeyColumn_of_pkKind hkind
  let corpus : Corpus := ⟨(t.loadStats column).1, averageLength (t.loadStats column).1
    (t.loadStats column).2, ln⟩
  obtain ⟨hits, hhits, htracked⟩ := @foldlM_matchTerm _ _ _ _ hm corpus (queryTerms query).zipIdx
    fun e he ↦ zero_notMem_of_mem_queryTerms
      (List.mem_of_getElem? (List.mem_zipIdx_iff_getElem?.mp he))
  have hrow : ∀ e ∈ rankHits hits (queryTerms query).length matchAll,
      ∃ hit, t.HitOf schema e hit := fun e he ↦ by
    obtain ⟨⟨term, -, hmatched⟩, -⟩ := htracked.exists_mem_rankHits.mp ⟨e.2, he⟩
    obtain ⟨row, hhas, hk⟩ := hasRow_of_matched hkeyed hmatched
    exact ⟨⟨row, e.2⟩, hhas, hk, rfl⟩
  obtain ⟨all, hall⟩ := List.Forall₂.exists_of_forall hrow
  have hmem : ∀ row, row ∈ all.map ScoredRow.row ↔ t.HasRow schema row ∧
      Found column query matchAll row := fun row ↦ by
    rw [List.mem_map]
    constructor
    · rintro ⟨hit, hhit, rfl⟩
      obtain ⟨e, he, hhas, hk, -⟩ := hall.exists_left hhit
      exact ⟨hhas, (found_iff hhas hk).mpr (htracked.exists_mem_rankHits.mp ⟨e.2, he⟩)⟩
    · rintro ⟨hhas, hfound⟩
      obtain ⟨k, hk⟩ : ∃ k, sortableKey row.pk = some k := hhas.2.imp fun _ h ↦ h.1
      obtain ⟨score, he⟩ := htracked.exists_mem_rankHits.mpr ((found_iff hhas hk).mp hfound)
      obtain ⟨hit, hhit, hhas', hk', -⟩ := hall.exists_right he
      exact ⟨hit, hhit, hhas'.eq_of_key hhas hk' hk⟩
  have hnodup : (all.map ScoredRow.row).Nodup := by
    rw [List.Nodup, List.pairwise_map]
    refine hall.pairwise_right (List.pairwise_map.mp (nodup_rankHits hits _ matchAll))
      fun e e' hit hit' he he' hne heq ↦ hne ?_
    have hk := he.2.1
    rw [heq, he'.2.1, Option.some_inj] at hk
    exact hk.symm
  refine ⟨all.filter fun hit ↦ passes schema q hit.row,
    hnodup.sublist (List.filter_sublist.map _), fun row ↦ ?_, fun limit ↦ ?_⟩
  · rw [and_left_comm, ← hmem, ← hpass]
    simp only [List.mem_map, List.mem_filter]
    constructor
    · rintro ⟨hit, ⟨hhit, hp⟩, rfl⟩
      exact ⟨hp, hit, hhit, rfl⟩
    · rintro ⟨hp, hit, hhit, rfl⟩
      exact ⟨hit, ⟨hhit, hp⟩, rfl⟩
  · rw [searchTextIn, Except.guardOr_eq_ok (u := ()) |>.mpr hcolumn, Except.ok_bind, hq, Except.ok_bind]
    dsimp only
    split
    · rename_i hstop
      rw [hstop.resolve_left hquery, List.take_zero]
      rfl
    · rename_i hgo
      rw [hhits, Except.ok_bind, hpk, Except.ok_bind,
        fetchHits_spec (hof ▸ hkind) q hall (Nat.pos_of_ne_zero (not_or.mp hgo).2)]
      rfl

/-- A search succeeds with the given rows, each once. -/
def SearchReturns (ln : F64 → F64) (t : TableStore) (schema : TableSchema) (column query : String)
    (limit : ℕ) (matchAll : Bool) (filter : Option Expr) (rows : List Row) : Prop :=
  ∃ hits, searchTextIn ln t schema column query limit matchAll filter = .ok hits ∧
    (hits.map ScoredRow.row).Perm rows

/-- **Text search is exact just when no row is overcounted**: for every limit that leaves room for the
wanted rows, and for any one that leaves room for another. Without the demand for every word it
always is. -/
theorem searchTextIn_exact_iff (ln : F64 → F64) (hkeyed : t.RowsKeyed schema)
    (hpk : ∃ kind, schema.pkKind = some kind) (hcolumn : column ∈ t.ftsColumns)
    (hm : t.Mirrors column (t.textsOf column)) (hquery : ∃ term, IsQueryTerm query term)
    (hfilter : ∀ f ∈ filter, Query.checkColumns { filters := [f] } schema = .ok ())
    (matchAll : Bool) :
    ∃ wanted : List Row, wanted.Nodup ∧
      (∀ row, row ∈ wanted ↔ t.HasRow schema row ∧
        Wanted schema column query matchAll filter row) ∧
      ((∀ limit, wanted.length ≤ limit →
          SearchReturns ln t schema column query limit matchAll filter wanted) ↔
        ¬(matchAll = true ∧ ∃ row, t.HasRow schema row ∧
          Overcounted schema column query filter row)) ∧
      ∀ limit, wanted.length < limit →
        (SearchReturns ln t schema column query limit matchAll filter wanted ↔
          ¬(matchAll = true ∧ ∃ row, t.HasRow schema row ∧
            Overcounted schema column query filter row)) := by
  classical
  have hne : queryTerms query ≠ [] := by
    obtain ⟨term, hterm⟩ := hquery
    exact List.ne_nil_of_mem (mem_queryTerms.mpr hterm)
  obtain ⟨found, hnodup, hmem, hsearch⟩ := searchTextIn_found ln hkeyed hpk hcolumn hm hne hfilter
    matchAll
  have hreturns : ∀ {limit : ℕ} {rows : List Row},
      SearchReturns ln t schema column query limit matchAll filter rows ↔
        ((found.take limit).map ScoredRow.row).Perm rows := fun {limit rows} ↦ by
    rw [SearchReturns, hsearch]
    simp
  let wanted := (found.map ScoredRow.row).filter
    fun row ↦ decide (Wanted schema column query matchAll filter row)
  have hwanted : ∀ row, row ∈ wanted ↔ t.HasRow schema row ∧
      Wanted schema column query matchAll filter row := fun row ↦ by
    rw [List.mem_filter, hmem, decide_eq_true_iff, wanted_iff hne]
    tauto
  have hle : wanted.length ≤ found.length := by
    rw [← List.length_map (f := ScoredRow.row)]
    exact List.length_filter_le ..
  -- the rows found beyond the wanted ones are the overcounted
  have hover : (matchAll = true ∧ ∃ row, t.HasRow schema row ∧
      Overcounted schema column query filter row) ↔ wanted.length < found.length := by
    rw [← List.length_map (f := ScoredRow.row), List.length_filter_lt_length_iff_exists]
    constructor
    · rintro ⟨hall, row, hrow, hrest⟩
      refine ⟨row, (hmem row).mpr ⟨hrow, hrest.1, hrest.found _⟩, ?_⟩
      rw [decide_eq_true_iff, wanted_iff hne]
      exact fun hw ↦ hw.2.2 ⟨hall, hrest⟩
    · rintro ⟨row, hrow, hnot⟩
      obtain ⟨hhas, hpass, hfound⟩ := (hmem row).mp hrow
      rw [decide_eq_true_iff, wanted_iff hne] at hnot
      obtain ⟨hall, hrest⟩ : matchAll = true ∧ Overcounted schema column query filter row := by
        by_contra hcon
        exact hnot ⟨hpass, hfound, hcon⟩
      exact ⟨hall, row, hhas, hrest⟩
  have hexact : wanted.length = found.length → wanted = found.map ScoredRow.row := fun heq ↦
    List.filter_sublist.eq_of_length (by rw [List.length_map, ← heq])
  have hafter : ∀ limit, wanted.length < limit →
      (SearchReturns ln t schema column query limit matchAll filter wanted ↔
        ¬wanted.length < found.length) := fun limit hlimit ↦ by
    rw [hreturns]
    constructor
    · intro hperm
      have hlen := hperm.length_eq
      rw [List.length_map, List.length_take] at hlen
      omega
    · intro hnot
      rw [List.take_of_length_le (by omega), hexact (by omega)]
  refine ⟨wanted, hnodup.filter _, hwanted, ?_, fun limit hlimit ↦ by rw [hover, hafter limit hlimit]⟩
  rw [hover]
  constructor
  · intro hall
    exact (hafter (wanted.length + 1) (by omega)).mp (hall _ (by omega))
  · intro hnot limit hlimit
    rw [hreturns, List.take_of_length_le (by omega), hexact (by omega)]

end TableStore

/-! ## A note with more than 64 words -/

namespace RelRun

open TableStore

/-- `a`, `aa`, `aaa`, …. -/
private def aWords (n : ℕ) : List (List Char) := (List.range n).map fun i ↦ .replicate (i + 1) 'a'

/-- The first `n` of these words as a text. -/
private def aText (n : ℕ) : String := String.ofList ((aWords n).flatMap (· ++ [' ']))

private theorem mem_aWords {n : ℕ} {w : List Char} (hw : w ∈ aWords n) :
    ∃ i < n, w = List.replicate (i + 1) 'a' := by
  obtain ⟨i, hi, rfl⟩ := List.mem_map.mp hw
  exact ⟨i, List.mem_range.mp hi, rfl⟩

private theorem tokenize_aText (n : ℕ) :
    @tokenize Unicode.ascii (aText n) = (aWords n).map String.ofList := by
  rw [aText, tokenize_words fun w hw ↦ ?_]
  · refine List.map_congr_left fun w hw ↦ ?_
    obtain ⟨i, -, rfl⟩ := mem_aWords hw
    rw [List.map_replicate]
    rfl
  · obtain ⟨i, -, rfl⟩ := mem_aWords hw
    exact ⟨by simp, fun c hc ↦ by rw [List.eq_of_mem_replicate hc]; rfl⟩

private theorem nodup_aWords (n : ℕ) : (aWords n).Nodup :=
  List.nodup_range.map fun i j hij ↦ by simpa using congrArg List.length hij

private theorem wordTerms_aWords {n : ℕ} {w : List Char} (hw : w ∈ aWords n) :
    @wordTerms Unicode.ascii w = [(String.ofList w, false)] := by
  obtain ⟨i, -, rfl⟩ := mem_aWords hw
  have hlast : (List.replicate (i + 1) 'a').getLast? = some 'a' := by
    rw [List.replicate_succ', List.getLast?_append]
    rfl
  have hdrop : (List.replicate (i + 1) 'a').rdropWhile (· = '*') = List.replicate (i + 1) 'a' := by
    rw [List.replicate_succ', List.rdropWhile_concat_neg _ _ _ (by decide)]
  have htokens : @tokenize Unicode.ascii (String.ofList (List.replicate (i + 1) 'a')) =
      [String.ofList (List.replicate (i + 1) 'a')] := by
    unfold tokenize
    rw [String.toList_ofList, List.splitOnP_eq_singleton fun c hc ↦ by
      rw [List.eq_of_mem_replicate hc]
      rfl]
    show [String.ofList ((String.ofList (List.replicate (i + 1) 'a')).toList.map Char.toLower)] = _
    rw [String.toList_ofList, List.map_replicate]
    rfl
  unfold wordTerms
  rw [hdrop, htokens, hlast]
  rfl

private theorem queryTerms_aText (n : ℕ) :
    @queryTerms Unicode.ascii (aText n) = (aWords n).map fun w ↦ (String.ofList w, false) := by
  have hwords : splitWhitespace (aText n) = aWords n := by
    rw [splitWhitespace, aText, String.toList_ofList, filter_splitOnP_words (by rfl) fun w hw ↦ ?_]
    obtain ⟨i, -, rfl⟩ := mem_aWords hw
    exact ⟨by simp, fun c hc ↦ by rw [List.eq_of_mem_replicate hc]; rfl⟩
  have hterms : (aWords n).flatMap (@wordTerms Unicode.ascii) =
      (aWords n).map fun w ↦ (String.ofList w, false) := by
    rw [List.flatMap_congr fun w hw ↦ wordTerms_aWords hw, List.map_eq_flatMap]
  unfold queryTerms
  rw [hwords, hterms, foldl_pushTerm_of_nodup, List.nil_append]
  exact (nodup_aWords n).map fun w w' h ↦ String.ofList_injective (Prod.mk.inj h).1

private theorem containsTerm_aText {n i : ℕ} :
    @ContainsTerm Unicode.ascii (aText n) (String.ofList (.replicate (i + 1) 'a'), false) ↔ i < n := by
  unfold ContainsTerm
  rw [tokenize_aText]
  constructor
  · rintro ⟨token, htoken, heq⟩
    obtain ⟨w, hw, rfl⟩ := List.mem_map.mp htoken
    obtain ⟨j, hj, rfl⟩ := mem_aWords hw
    have hlen := congrArg List.length (String.ofList_injective heq)
    rw [List.length_replicate, List.length_replicate] at hlen
    omega
  · intro hi
    exact ⟨_, List.mem_map_of_mem (List.mem_map_of_mem (List.mem_range.mpr hi)), rfl⟩

/-- The notes table with the first `n` words. -/
private theorem exists_aNote {n : ℕ} (hn : n < 2 ^ 32) :
    ∃ r, @runTxs Unicode.ascii ℕ _ Ann.flat (notesTxs (aText n)) = .ok r ∧
      (r.store "notes").RowsKeyed notesSchema ∧ "body" ∈ (r.store "notes").ftsColumns ∧
      @Mirrors Unicode.ascii (r.store "notes") "body" ((r.store "notes").textsOf "body") ∧
      ∀ row, (r.store "notes").HasRow notesSchema row ↔ row = ⟨.int 1, note (aText n)⟩ := by
  have hlen : (@tokenize Unicode.ascii (aText n)).length = n := by
    rw [tokenize_aText, List.length_map, aWords, List.length_map, List.length_range]
  obtain ⟨r, hr, hrows, hcolumns⟩ := exists_runTxs_notes (aText n)
    (fun term ↦ lt_of_le_of_lt List.count_le_length (by omega)) (by omega)
  obtain ⟨-, hinv⟩ := fulltextInv_notes hr
  have hcolumn : "body" ∈ (r.store "notes").ftsColumns := by
    rw [hcolumns]
    exact List.mem_singleton_self _
  have hrow : (r.store "notes").HasRow notesSchema ⟨.int 1, note (aText n)⟩ :=
    ⟨rfl, noteKey, rfl, by rw [hrows, OrdMap.get?_insert_self]⟩
  have hkey : ∀ {k values}, (r.store "notes").rows.get? k = some values → k = noteKey := by
    intro k values hget
    rw [hrows, OrdMap.get?_insert] at hget
    split at hget
    · assumption
    · simp at hget
  refine ⟨r, hr, fun k values hget ↦ ?_, hcolumn, @FulltextInv.mirrors Unicode.ascii _ hinv _ hcolumn,
    fun row ↦ ⟨fun h ↦ ?_, fun h ↦ h ▸ hrow⟩⟩
  · obtain rfl := hkey hget
    rw [hrows, OrdMap.get?_insert_self, Option.some_inj] at hget
    exact ⟨_, rfl, hget ▸ hrow⟩
  · obtain ⟨-, k, hk, hget⟩ := id h
    obtain rfl := hkey hget
    exact h.eq_of_key hrow hk rfl

private theorem isQueryTerm_aText {n i : ℕ} (hi : i < n) :
    @IsQueryTerm Unicode.ascii (aText n) (String.ofList (.replicate (i + 1) 'a'), false) := by
  rw [← @mem_queryTerms Unicode.ascii, queryTerms_aText]
  exact List.mem_map_of_mem (List.mem_map_of_mem (List.mem_range.mpr hi))

theorem searchTextIn_exact_notes : ∃ (r : RelRun) (wanted : List Row),
    @runTxs Unicode.ascii ℕ _ Ann.flat (notesTxs (aText 2)) = .ok r ∧
      ⟨.int 1, note (aText 2)⟩ ∈ wanted ∧
      ∀ limit, wanted.length ≤ limit → @SearchReturns Unicode.ascii id (r.store "notes") notesSchema
        "body" (aText 2) limit true none wanted := by
  obtain ⟨r, hr, hkeyed, hcolumn, hm, hrow⟩ := exists_aNote (n := 2) (by norm_num)
  obtain ⟨wanted, -, hmem, hexact, -⟩ := @searchTextIn_exact_iff Unicode.ascii _ _ _ (aText 2) none id
    hkeyed ⟨_, rfl⟩ hcolumn hm ⟨_, isQueryTerm_aText (i := 0) (by norm_num)⟩ (by simp) true
  refine ⟨r, wanted, hr, (hmem _).mpr ⟨(hrow _).mpr rfl, by simp, aText 2, rfl, ?_⟩, hexact.mpr ?_⟩
  · rw [if_pos rfl]
    intro term hterm
    rw [← @mem_queryTerms Unicode.ascii, queryTerms_aText] at hterm
    obtain ⟨w, hw, rfl⟩ := List.mem_map.mp hterm
    obtain ⟨i, hi, rfl⟩ := mem_aWords hw
    exact containsTerm_aText.mpr hi
  · -- two terms leave no bit to share
    rintro ⟨-, -, -, -, -, -, -, ⟨term, hterm, -⟩, -⟩
    rw [queryTerms_aText, List.drop_eq_nil_of_le (by simp [aWords])] at hterm
    simp at hterm

/-- A row with the first 64 of 65 words is returned by a search for all of them. -/
theorem searchTextIn_not_exact : ∃ r : RelRun,
    @runTxs Unicode.ascii ℕ _ Ann.flat (notesTxs (aText 64)) = .ok r ∧
      (r.store "notes").RowsKeyed notesSchema ∧ "body" ∈ (r.store "notes").ftsColumns ∧
      @Mirrors Unicode.ascii (r.store "notes") "body" ((r.store "notes").textsOf "body") ∧
      (∀ row, (r.store "notes").HasRow notesSchema row →
        ¬@Wanted Unicode.ascii notesSchema "body" (aText 65) true none row) ∧
      ¬@SearchReturns Unicode.ascii id (r.store "notes") notesSchema "body" (aText 65) 1 true none
        [] := by
  obtain ⟨r, hr, hkeyed, hcolumn, hm, hrow⟩ := exists_aNote (n := 64) (by norm_num)
  have hterms : @queryTerms Unicode.ascii (aText 65) =
      (List.range 65).map fun i ↦ (String.ofList (.replicate (i + 1) 'a'), false) := by
    rw [queryTerms_aText, aWords, List.map_map]
    rfl
  have hne : @queryTerms Unicode.ascii (aText 65) ≠ [] := by simp [hterms]
  have hover : @Overcounted Unicode.ascii notesSchema "body" (aText 65) none
      ⟨.int 1, note (aText 64)⟩ := by
    refine ⟨by simp, aText 64, rfl, fun term hterm ↦ ?_, ?_, ?_⟩
    · rw [hterms, ← List.map_take] at hterm
      obtain ⟨i, hi, rfl⟩ := List.mem_map.mp hterm
      rw [List.take_range, List.mem_range] at hi
      exact containsTerm_aText.mpr (by omega)
    · refine ⟨_, ?_, containsTerm_aText (i := 63) |>.mpr (by norm_num)⟩
      rw [hterms, ← List.map_drop]
      exact List.mem_map_of_mem (by decide)
    · refine ⟨(String.ofList (.replicate (64 + 1) 'a'), false), ?_,
        containsTerm_aText.not.mpr (by norm_num)⟩
      rw [hterms, ← List.map_drop]
      exact List.mem_map_of_mem (by decide)
  refine ⟨r, hr, hkeyed, hcolumn, hm, fun row h ↦ ?_, fun ⟨hits, hhits, hperm⟩ ↦ ?_⟩
  · rw [(hrow row).mp h, @wanted_iff Unicode.ascii _ _ _ _ _ hne]
    exact fun hw ↦ hw.2.2 ⟨rfl, hover⟩
  · obtain ⟨found, -, hmem, hsearch⟩ := @searchTextIn_found Unicode.ascii _ _ _ (aText 65) none id
      hkeyed ⟨_, rfl⟩ hcolumn hm hne (by simp) true
    have hin := (hmem _).mpr ⟨(hrow _).mpr rfl, hover.1,
      @Overcounted.found Unicode.ascii _ _ _ _ _ hover true⟩
    rw [hsearch, Except.ok.injEq] at hhits
    obtain ⟨hit, hhit, -⟩ := List.mem_map.mp hin
    cases found with
    | nil => simp at hhit
    | cons hit found =>
      rw [← hhits] at hperm
      simp at hperm

end RelRun
