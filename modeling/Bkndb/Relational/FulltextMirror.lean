import Bkndb.Relational.Values

/-!
# Full-text indexes mirror the table

The documents of a full-text column are the texts its rows hold. The index is maintained by taking
the old text out and putting the new one in, inside every write path; each such step turns the index
of some documents into the index of the changed documents, so at any time the index is the one a
rebuild would produce.

The documents table holds a row's number of tokens `as u32`. Everything else is exact.

## Main results

* `Mirrors.indexText` and `Mirrors.unindexText`: what the two halves of a row change do to the
  index of some documents.
* `FulltextInv.applyOp`: every operation keeps the full-text indexes in step.
* `fulltext_mirrored`: so they mirror the table in every committed state, for texts with fewer than
  `2 ^ 32` tokens.

The texts are collected from the rows (`textsOf`), so "the index a rebuild would produce" is a
function of the rows, and needs no run of a rebuild.
-/

open PropValue

namespace TableStore

variable [Unicode] {t t' : TableStore} {column : String}

/-! ## Terms -/

omit [Unicode] in
theorem getD_eq_count {tokens : List String} {tf : OrdMap String ℕ}
    (h : ∀ term n, tf.get? term = some n ↔ term ∈ tokens ∧ n = tokens.count term) (term : String) :
    (tf.get? term).getD 0 = tokens.count term := by
  cases hget : tf.get? term with
  | some m => rw [Option.getD_some, ((h term m).mp hget).2]
  | none =>
    have hnot : term ∉ tokens := fun hmem ↦ by simpa [hget] using (h term _).mpr ⟨hmem, rfl⟩
    rw [Option.getD_none, List.count_eq_zero_of_not_mem hnot]

omit [Unicode] in
theorem get?_termFrequencies {tokens : List String} {tf : OrdMap String ℕ}
    (h : termFrequencies tokens = .ok tf) {term : String} {n : ℕ} :
    tf.get? term = some n ↔ term ∈ tokens ∧ n = tokens.count term := by
  refine Except.foldlM_induction (fun done tf ↦ ∀ term n, tf.get? term = some n ↔
    term ∈ done ∧ n = done.count term) h (by simp) (fun done a tf tf' _ hP hstep ↦ ?_) term n
  rw [countTerm] at hstep
  split at hstep
  · obtain rfl := Except.ok.inj hstep
    intro term n
    rw [OrdMap.get?_insert]
    by_cases hterm : term = a
    · subst hterm
      simp [getD_eq_count hP, eq_comm]
    · have hcons : [a].count term = 0 := by simp [Ne.symm hterm]
      simp [hterm, hP, List.count_append, hcons]
  · simp at hstep

omit [Unicode] in
/-- The key of a posting determines the term and the row, since terms hold no NUL byte. -/
theorem postingsKey_inj {term term' : String} {k k' : Bytes} (h : 0 ∉ term.utf8)
    (h' : 0 ∉ term'.utf8) (heq : postingsKey term k = postingsKey term' k') :
    term = term' ∧ k = k' := by
  obtain ⟨hterm, hk⟩ := Bytes.terminated_inj h h' heq
  exact ⟨String.utf8_injective hterm, hk⟩

/-! ## The index of some documents

A document is a row's key with its text. The postings, the number of tokens of each and their
totals are functions of the documents. -/

/-- A posting of the given documents: a term, the row, and how often it occurs there. -/
def IsPosting (texts : OrdMap Bytes String) (key : Bytes) (n : ℕ) : Prop :=
  ∃ k text term, texts.get? k = some text ∧ term ∈ tokenize text ∧
    key = postingsKey term k ∧ n = (tokenize text).count term

/-- The full-text index of a column is that of the given documents. -/
structure Mirrors (t : TableStore) (column : String) (texts : OrdMap Bytes String) : Prop where
  postings : ∀ key n, (t.postings column).get? key = some n ↔ IsPosting texts key n
  docs : ∀ k, (t.docs column).get? k =
    (texts.get? k).map fun text ↦ (tokenize text).length % 2 ^ 32
  stats : t.loadStats column =
    (texts.size, (texts.entries.map fun e ↦ (tokenize e.2).length).sum)

/-- The tables of one column. -/
structure SameColumn (t t' : TableStore) (column : String) : Prop where
  postings : t'.postings column = t.postings column
  docs : t'.docs column = t.docs column
  ftsStats : t'.ftsStats column = t.ftsStats column

omit [Unicode] in
theorem SameColumn.trans {t'' : TableStore} (h : SameColumn t t' column)
    (h' : SameColumn t' t'' column) : SameColumn t t'' column :=
  ⟨h'.postings.trans h.postings, h'.docs.trans h.docs, h'.ftsStats.trans h.ftsStats⟩

variable {texts : OrdMap Bytes String} {k : Bytes} {text : String}

theorem Mirrors.congr (h : t.Mirrors column texts) (hsame : SameColumn t t' column) :
    t'.Mirrors column texts := by
  refine ⟨?_, ?_, ?_⟩
  · rw [hsame.postings]
    exact h.postings
  · rw [hsame.docs]
    exact h.docs
  · rw [loadStats, hsame.ftsStats]
    exact h.stats

theorem mirrors_empty (hpostings : t.postings column = ∅) (hdocs : t.docs column = ∅)
    (hstats : t.ftsStats column = none) : t.Mirrors column ∅ := by
  refine ⟨by simp [hpostings, IsPosting], by simp [hdocs], ?_⟩
  rw [loadStats, hstats]
  rfl

theorem IsPosting.key_ne {key : Bytes} {n : ℕ} (h : IsPosting texts key n)
    (hk : texts.get? k = none) {term : String} (hterm : term ∈ tokenize text) :
    key ≠ postingsKey term k := by
  obtain ⟨k', text', term', hget, hterm', rfl, -⟩ := h
  intro heq
  obtain ⟨-, rfl⟩ := postingsKey_inj (zero_notMem_of_mem_tokenize hterm')
    (zero_notMem_of_mem_tokenize hterm) heq
  rw [hk] at hget
  simp at hget

theorem isPosting_insert {key : Bytes} {n : ℕ} (hk : texts.get? k = none) :
    IsPosting (texts.insert k text) key n ↔
      (∃ term ∈ tokenize text, key = postingsKey term k ∧ n = (tokenize text).count term) ∨
        IsPosting texts key n := by
  constructor
  · rintro ⟨k', text', term, hget, hterm, hkey, hn⟩
    by_cases hkk : k' = k
    · subst hkk
      rw [OrdMap.get?_insert_self, Option.some_inj] at hget
      subst hget
      exact .inl ⟨term, hterm, hkey, hn⟩
    · rw [OrdMap.get?_insert_of_ne _ _ hkk] at hget
      exact .inr ⟨k', text', term, hget, hterm, hkey, hn⟩
  · rintro (⟨term, hterm, hkey, hn⟩ | ⟨k', text', term, hget, hterm, hkey, hn⟩)
    · exact ⟨k, text, term, OrdMap.get?_insert_self .., hterm, hkey, hn⟩
    · have hkk : k' ≠ k := by
        rintro rfl
        rw [hk] at hget
        simp at hget
      exact ⟨k', text', term, by rw [OrdMap.get?_insert_of_ne _ _ hkk, hget], hterm, hkey, hn⟩

theorem sum_insert (hk : texts.get? k = none) :
    ((texts.insert k text).entries.map fun e ↦ (tokenize e.2).length).sum =
      (texts.entries.map fun e ↦ (tokenize e.2).length).sum + (tokenize text).length := by
  have hperm := OrdMap.entries_perm (OrdMap.get?_insert_self texts k text)
  rw [OrdMap.erase_insert text hk] at hperm
  rw [(hperm.map _).sum_eq, List.map_cons, List.sum_cons, add_comm]

/-- **Indexing a text adds a document.** -/
theorem Mirrors.indexText (hm : t.Mirrors column texts) (hk : texts.get? k = none)
    (h : t.indexText column k text = .ok t') : t'.Mirrors column (texts.insert k text) := by
  simp only [TableStore.indexText, Except.bind_eq_ok, checkedAdd_eq_ok] at h
  obtain ⟨tf, htf, n, ⟨-, rfl⟩, m, ⟨-, rfl⟩, h⟩ := h
  obtain rfl := Except.ok.inj h
  have hget : ∀ term n, tf.get? term = some n ↔
      term ∈ tokenize text ∧ n = (tokenize text).count term := fun _ _ ↦ get?_termFrequencies htf
  have hmem : ∀ key n, (key, n) ∈ tf.entries.map (fun e ↦ (postingsKey e.1 k, e.2)) ↔
      ∃ term ∈ tokenize text, key = postingsKey term k ∧ n = (tokenize text).count term := by
    intro key n
    simp only [List.mem_map, Prod.exists, OrdMap.mem_entries, hget, Prod.mk.injEq]
    constructor
    · rintro ⟨term, m, ⟨hterm, rfl⟩, rfl, rfl⟩
      exact ⟨term, hterm, rfl, rfl⟩
    · rintro ⟨term, hterm, rfl, rfl⟩
      exact ⟨term, _, ⟨hterm, rfl⟩, rfl, rfl⟩
  have hnodup : ((tf.entries.map fun e ↦ (postingsKey e.1 k, e.2)).map Prod.fst).Nodup := by
    rw [List.map_map, show Prod.fst ∘ (fun e : String × ℕ ↦ (postingsKey e.1 k, e.2)) =
      (postingsKey · k) ∘ Prod.fst from rfl, ← List.map_map]
    refine List.Nodup.map_on (fun a ha b hb hab ↦ ?_) tf.keys_nodup
    obtain ⟨n, hn⟩ := OrdMap.mem_keys.mp ha
    obtain ⟨m, hm⟩ := OrdMap.mem_keys.mp hb
    exact (postingsKey_inj (zero_notMem_of_mem_tokenize ((hget a n).mp hn).1)
      (zero_notMem_of_mem_tokenize ((hget b m).mp hm).1) hab).1
  refine ⟨fun key n ↦ ?_, fun k' ↦ ?_, ?_⟩
  · simp only [Function.update_self]
    rw [OrdMap.get?_insertAll hnodup, isPosting_insert hk, hmem, hm.postings]
    refine or_congr_right (and_iff_right_of_imp fun hp hkey ↦ ?_)
    obtain ⟨⟨key', n'⟩, hkey', rfl⟩ := List.mem_map.mp hkey
    obtain ⟨term, hterm, hkey, -⟩ := (hmem _ _).mp hkey'
    exact hp.key_ne hk hterm hkey
  · simp only [Function.update_self]
    rw [OrdMap.get?_insert, OrdMap.get?_insert, hm.docs]
    by_cases hkk : k' = k
    · simp [hkk]
    · simp [hkk]
  · rw [loadStats, hm.stats, OrdMap.size_insert _ hk, sum_insert hk]
    simp

/-- **Taking a text out removes a document.** -/
theorem Mirrors.unindexText (hm : t.Mirrors column texts) (hk : texts.get? k = some text)
    (h : t.unindexText column k text = .ok t') : t'.Mirrors column (texts.erase k) := by
  simp only [TableStore.unindexText, Except.bind_eq_ok] at h
  obtain ⟨tf, htf, h⟩ := h
  obtain rfl := Except.ok.inj h
  have hnone := OrdMap.get?_erase_self texts k
  have hsplit := OrdMap.insert_erase hk
  have hmem : ∀ key, key ∈ tf.keys.map (postingsKey · k) ↔
      ∃ term ∈ tokenize text, key = postingsKey term k := by
    intro key
    simp only [List.mem_map, OrdMap.mem_keys, get?_termFrequencies htf]
    constructor
    · rintro ⟨term, ⟨n, hterm, -⟩, rfl⟩
      exact ⟨term, hterm, rfl⟩
    · rintro ⟨term, hterm, rfl⟩
      exact ⟨term, ⟨_, hterm, rfl⟩, rfl⟩
  refine ⟨fun key n ↦ ?_, fun k' ↦ ?_, ?_⟩
  · simp only [Function.update_self]
    rw [OrdMap.get?_eraseAll]
    have hold := hm.postings key n
    rw [← hsplit, isPosting_insert hnone] at hold
    split
    · rename_i hkey
      obtain ⟨term, hterm, hkey⟩ := (hmem key).mp hkey
      simp only [reduceCtorEq, false_iff]
      exact fun hp ↦ hp.key_ne hnone hterm hkey
    · rename_i hkey
      rw [hold]
      refine or_iff_right fun hp ↦ ?_
      obtain ⟨term, hterm, hkey', -⟩ := hp
      exact hkey ((hmem key).mpr ⟨term, hterm, hkey'⟩)
  · simp only [Function.update_self]
    rw [OrdMap.get?_erase, OrdMap.get?_erase, hm.docs]
    by_cases hkk : k' = k
    · simp [hkk]
    · simp [hkk]
  · have hsize := OrdMap.size_erase hk
    have hsum : (((texts.erase k).insert k text).entries.map fun e ↦ (tokenize e.2).length).sum =
        ((texts.erase k).entries.map fun e ↦ (tokenize e.2).length).sum + (tokenize text).length :=
      sum_insert hnone
    rw [hsplit] at hsum
    rw [loadStats, hm.stats, ← hsize, hsum]
    simp

/-! ## The texts of a table

A row change exchanges the text of one key, so the documents afterwards are those before with one
of them replaced, added or removed. -/

/-- The documents of a column: the texts the rows hold in it. -/
def textsOf (t : TableStore) (column : String) : OrdMap Bytes String :=
  t.rows.filterMap fun values ↦ textOf (some values) column

omit [Unicode] in
theorem get?_textsOf (t : TableStore) (column : String) (k : Bytes) :
    (t.textsOf column).get? k = textOf (t.rows.get? k) column := by
  rw [textsOf, OrdMap.get?_filterMap]
  cases t.rows.get? k with
  | none => rfl
  | some values => rfl

/-- A row's text replaced. -/
def setText (texts : OrdMap Bytes String) (k : Bytes) : Option String → OrdMap Bytes String
  | some text => texts.insert k text
  | none => texts.erase k

omit [Unicode] in
theorem get?_setText (texts : OrdMap Bytes String) (k k' : Bytes) (text : Option String) :
    (setText texts k text).get? k' = if k' = k then text else texts.get? k' := by
  by_cases hkk : k' = k
  · cases text <;> simp [setText, hkk]
  · cases text with
    | none => simp [setText, hkk, OrdMap.get?_erase_of_ne _ hkk]
    | some text => simp [setText, hkk, OrdMap.get?_insert_of_ne _ _ hkk]

/-- **Following a row change** replaces the row's text. -/
theorem Mirrors.ftsColumnChange {old new : Option Properties} (hm : t.Mirrors column texts)
    (hold : texts.get? k = textOf old column)
    (h : ftsColumnChange k old new t column = .ok t') :
    t'.Mirrors column (setText texts k (textOf new column)) := by
  rcases ftsColumnChange_eq_ok h with ⟨heq, rfl⟩ | ⟨-, s, hs, hs'⟩
  · have hsame : setText texts k (textOf new column) = texts := by
      refine OrdMap.ext fun k' ↦ ?_
      rw [get?_setText, ← heq, ← hold]
      split
      · simp [*]
      · rfl
    rw [hsame]
    exact hm
  · have hm' : s.Mirrors column (texts.erase k) := by
      rcases hs with ⟨text, htext, hs⟩ | ⟨hnone, rfl⟩
      · exact hm.unindexText (hold.trans htext) hs
      · rw [OrdMap.erase_of_get?_eq_none (hold.trans hnone)]
        exact hm
    rcases hs' with ⟨text, htext, hs'⟩ | ⟨hnone, rfl⟩
    · have hset : setText texts k (textOf new column) = (texts.erase k).insert k text := by
        refine OrdMap.ext fun k' ↦ ?_
        rw [get?_setText, htext, OrdMap.get?_insert, OrdMap.get?_erase]
        by_cases hkk : k' = k
        · simp [hkk]
        · simp [hkk]
      rw [hset]
      exact hm'.indexText (OrdMap.get?_erase_self ..) hs'
    · rw [hnone]
      exact hm'

theorem indexText_sameColumn {c : String} (hc : c ≠ column)
    (h : t.indexText column k text = .ok t') : SameColumn t t' c := by
  simp only [indexText, Except.bind_eq_ok] at h
  obtain ⟨tf, -, docs, -, terms, -, h⟩ := h
  obtain rfl := Except.ok.inj h
  exact ⟨Function.update_of_ne hc .., Function.update_of_ne hc .., Function.update_of_ne hc ..⟩

theorem unindexText_sameColumn {c : String} (hc : c ≠ column)
    (h : t.unindexText column k text = .ok t') : SameColumn t t' c := by
  simp only [unindexText, Except.bind_eq_ok] at h
  obtain ⟨tf, -, h⟩ := h
  obtain rfl := Except.ok.inj h
  exact ⟨Function.update_of_ne hc .., Function.update_of_ne hc .., Function.update_of_ne hc ..⟩

theorem ftsColumnChange_sameColumn {old new : Option Properties} {c : String} (hc : c ≠ column)
    (h : ftsColumnChange k old new t column = .ok t') : SameColumn t t' c := by
  rcases ftsColumnChange_eq_ok h with ⟨-, rfl⟩ | ⟨-, s, hs, hs'⟩
  · exact ⟨rfl, rfl, rfl⟩
  · have h₁ : SameColumn t s c := by
      rcases hs with ⟨text, -, hs⟩ | ⟨-, rfl⟩
      · exact unindexText_sameColumn hc hs
      · exact ⟨rfl, rfl, rfl⟩
    refine h₁.trans ?_
    rcases hs' with ⟨text, -, hs'⟩ | ⟨-, rfl⟩
    · exact indexText_sameColumn hc hs'
    · exact ⟨rfl, rfl, rfl⟩

/-! ## The invariant -/

/-- The full-text state of a table: listed columns mirror the rows, the others hold nothing. Only a
registered table lists columns, and they are text columns of its schema. -/
structure FulltextInv (t : TableStore) : Prop where
  nodup : t.ftsColumns.Nodup
  mirrors : ∀ c ∈ t.ftsColumns, t.Mirrors c (t.textsOf c)
  unlisted : ∀ c, c ∉ t.ftsColumns → t.postings c = ∅ ∧ t.docs c = ∅ ∧ t.ftsStats c = none
  declared : ∀ c ∈ t.ftsColumns, isTextColumn t.schema c = true

theorem fulltextInv_fresh : ({} : TableStore).FulltextInv :=
  ⟨List.nodup_nil, by simp, fun _ _ ↦ ⟨rfl, rfl, rfl⟩, by simp⟩

theorem FulltextInv.congr (hi : t.FulltextInv) (hrows : t'.rows = t.rows)
    (hschema : t'.schema = t.schema) (hcolumns : t'.ftsColumns = t.ftsColumns)
    (hsame : ∀ c, SameColumn t t' c) : t'.FulltextInv := by
  refine ⟨hcolumns ▸ hi.nodup, fun c hc ↦ ?_, fun c hc ↦ ?_, fun c hc ↦ ?_⟩
  · rw [hcolumns] at hc
    rw [textsOf, hrows]
    exact (hi.mirrors c hc).congr (hsame c)
  · rw [hcolumns] at hc
    rw [(hsame c).postings, (hsame c).docs, (hsame c).ftsStats]
    exact hi.unlisted c hc
  · rw [hcolumns] at hc
    rw [hschema]
    exact hi.declared c hc

variable {D : Type} [LinearOrder D] {g : Ann.Geometry D}

/-- **A row change keeps the full-text indexes in step.** -/
theorem RowChange.fulltextInv {schema : TableSchema} {pk : PropValue} {old new : Option Properties}
    (h : RowChange g schema pk k old new t t') (hi : t.FulltextInv) : t'.FulltextInv := by
  obtain ⟨hschema, -, hcolumns, -⟩ := h.frame
  obtain ⟨s, -, hsame, hs, hloop, -, -⟩ := onRowChange_eq_ok h.key h.search
  have hscolumns : s.ftsColumns = t.ftsColumns := hsame.ftsColumns
  have hstart : ∀ c, SameColumn t s c := fun c ↦ by
    rw [hs]
    exact ⟨rfl, rfl, rfl⟩
  -- the columns done mirror the new rows, the others still mirror the old ones
  have hend := Except.foldlM_induction (fun done s' ↦
    (∀ c ∈ t.ftsColumns, s'.Mirrors c (if c ∈ done then setText (t.textsOf c) k (textOf new c)
      else t.textsOf c)) ∧ ∀ c, c ∉ t.ftsColumns → SameColumn t s' c) hloop
    ⟨fun c hc ↦ by simpa using (hi.mirrors c hc).congr (hstart c), fun c _ ↦ hstart c⟩
    fun done c s₁ s₂ hpre hP hstep ↦ by
      rw [hscolumns] at hpre
      have hc : c ∈ t.ftsColumns := hpre.subset (by simp)
      have hnot : c ∉ done := fun hmem ↦ by
        have := (hi.nodup.sublist hpre.sublist)
        rw [List.nodup_append] at this
        exact this.2.2 c hmem c (by simp) rfl
      refine ⟨fun c' hc' ↦ ?_, fun c' hc' ↦ ?_⟩
      · by_cases hcc : c' = c
        · subst hcc
          have hm := hP.1 c' hc'
          rw [if_neg hnot] at hm
          rw [if_pos (by simp)]
          exact hm.ftsColumnChange (by rw [get?_textsOf, h.old_eq]) hstep
        · have hm := (hP.1 c' hc').congr (ftsColumnChange_sameColumn hcc hstep)
          simpa [hcc] using hm
      · have hcc : c' ≠ c := fun heq ↦ hc' (heq ▸ hc)
        exact (hP.2 c' hc').trans (ftsColumnChange_sameColumn hcc hstep)
  have htexts : ∀ c, t'.textsOf c = setText (t.textsOf c) k (textOf new c) := fun c ↦ by
    refine OrdMap.ext fun k' ↦ ?_
    rw [get?_setText, get?_textsOf, get?_textsOf, h.get?_rows]
    split <;> rfl
  refine ⟨hcolumns ▸ hi.nodup, fun c hc ↦ ?_, fun c hc ↦ ?_, fun c hc ↦ ?_⟩
  · rw [hcolumns] at hc
    have hm := hend.1 c hc
    rw [if_pos (by rw [hscolumns]; exact hc)] at hm
    rw [htexts]
    exact hm
  · rw [hcolumns] at hc
    rw [(hend.2 c hc).postings, (hend.2 c hc).docs, (hend.2 c hc).ftsStats]
    exact hi.unlisted c hc
  · rw [hcolumns] at hc
    rw [hschema]
    exact hi.declared c hc

variable {V : PropValue → Prop}

theorem RowStep.fulltextInv {schema : TableSchema} (h : RowStep g V schema t t')
    (hi : t.FulltextInv) : t'.FulltextInv := by
  cases h with
  | row hchange _ => exact hchange.fulltextInv hi
  | counter n => exact hi.congr rfl rfl rfl fun _ ↦ ⟨rfl, rfl, rfl⟩

theorem fulltextInv_of_rowSteps {schema : TableSchema} {s : TableStore} (hi : s.FulltextInv)
    (h : RowSteps g V schema s t) : t.FulltextInv := by
  induction h with
  | refl => exact hi
  | tail _ hstep ih => exact hstep.fulltextInv ih

theorem FulltextInv.vectorsOnly (hi : t.FulltextInv) (h : VectorsOnly t t') : t'.FulltextInv :=
  hi.congr (by rw [h]) (by rw [h]) (by rw [h]) fun c ↦ by
    rw [h]
    exact ⟨rfl, rfl, rfl⟩

/-! ## Catalog operations

Registration finds no search index; a migration keeps the rows' texts in the columns that stay text
columns, and drops the index of any other. -/

omit [Unicode] in
theorem foldl_dropIndexData (columns : List String) (t : TableStore) :
    columns.foldl dropIndexData t = { t with
      postings := fun c ↦ if c ∈ columns then ∅ else t.postings c
      docs := fun c ↦ if c ∈ columns then ∅ else t.docs c
      ftsStats := fun c ↦ if c ∈ columns then none else t.ftsStats c } := by
  induction columns generalizing t with
  | nil => simp
  | cons c columns ih =>
    rw [List.foldl_cons, ih, dropIndexData]
    congr 1
    all_goals
      funext c'
      by_cases hcc : c' = c
      · simp [hcc]
      · simp [hcc]

theorem fulltextInv_retainValidIn {schema : Option TableSchema} (hschema : t.schema = schema)
    (hnodup : t.ftsColumns.Nodup)
    (hmirrors : ∀ c ∈ t.ftsColumns, isTextColumn schema c = true → t.Mirrors c (t.textsOf c))
    (hunlisted : ∀ c, c ∉ t.ftsColumns →
      t.postings c = ∅ ∧ t.docs c = ∅ ∧ t.ftsStats c = none) :
    (t.retainValidIn schema).FulltextInv := by
  refine FulltextInv.vectorsOnly ?_ (annRetainValid_vectorsOnly _ schema)
  rw [ftsRetainValid]
  dsimp only
  split
  · rename_i hgone
    have hall : ∀ c ∈ t.ftsColumns, isTextColumn schema c = true := by
      simpa [List.filter_eq_nil_iff] using hgone
    exact ⟨hnodup, fun c hc ↦ hmirrors c hc (hall c hc), hunlisted,
      fun c hc ↦ hschema ▸ hall c hc⟩
  · rw [foldl_dropIndexData]
    refine ⟨hnodup.filter _, fun c hc ↦ ?_, fun c hc ↦ ?_, fun c hc ↦ ?_⟩
    · obtain ⟨hc, htext⟩ := List.mem_filter.mp hc
      have hnot : c ∉ t.ftsColumns.filter (!isTextColumn schema ·) := by simp [htext]
      refine (hmirrors c hc htext).congr ⟨?_, ?_, ?_⟩ <;> simp only [hnot, if_false]
    · rw [List.mem_filter, not_and] at hc
      simp only [List.mem_filter]
      by_cases hin : c ∈ t.ftsColumns
      · have htext : isTextColumn schema c = false := by simpa using hc hin
        simp [hin, htext]
      · simpa [hin] using hunlisted c hin
    · show isTextColumn t.schema c = true
      rw [hschema]
      exact (List.mem_filter.mp hc).2

theorem FulltextInv.ftsColumns_of_schema (hi : t.FulltextInv) (h : t.schema = none) :
    t.ftsColumns = [] := by
  refine List.eq_nil_iff_forall_not_mem.mpr fun c hc ↦ ?_
  have := hi.declared c hc
  rw [h] at this
  simp [isTextColumn] at this

/-- **Registration** keeps the invariant: there is nothing in it yet. -/
theorem FulltextInv.adoptIn {schema : TableSchema} (hi : t.FulltextInv) (hnone : t.schema = none)
    (h : t.adoptIn schema = .ok t') : t'.FulltextInv := by
  have hnil := hi.ftsColumns_of_schema hnone
  rw [adoptIn_frame h]
  refine ⟨hi.nodup, fun c hc ↦ ?_, hi.unlisted, fun c hc ↦ ?_⟩ <;>
    exact absurd (hnil ▸ hc) List.not_mem_nil

omit [Unicode] in
theorem Migrated.textsOf {old new : TableSchema} {scanned : List Row}
    (h : Migrated old new scanned t t') {c : String} (hold : isTextColumn (some old) c = true)
    (hnew : isTextColumn (some new) c = true) : t'.textsOf c = t.textsOf c := by
  have hdecl : ∀ {s : TableSchema}, isTextColumn (some s) c = true → (s.column c).isSome = true := by
    intro s hs
    rw [isTextColumn, Option.bind_some, Option.any_eq_true] at hs
    obtain ⟨col, hcol, -⟩ := hs
    rw [hcol]
    rfl
  refine OrdMap.ext fun k ↦ ?_
  rw [get?_textsOf, get?_textsOf, h.rows]
  cases t.rows.get? k with
  | none => rfl
  | some values =>
    simp only [textOf, Option.map_some, Option.bind_some]
    rw [get?_migrateValues_of_declared values (hdecl hnew) (hdecl hold)]

/-- **Migration** keeps the invariant. -/
theorem FulltextInv.ensureTableIn {schema : TableSchema} (hi : t.FulltextInv)
    (h : t.ensureTableIn schema = .ok t') : t'.FulltextInv := by
  rcases ensureTableIn_eq_ok h with ⟨hnone, h⟩ | ⟨old, -, -, rfl⟩ | ⟨old, s, hold, hmig, rfl⟩
  · exact hi.adoptIn hnone h
  · exact hi
  · obtain ⟨scanned, hm⟩ := migrateIn_migrated hmig
    refine fulltextInv_retainValidIn hm.schema ?_ (fun c hc htext ↦ ?_) (fun c hc ↦ ?_)
    · rw [hm.search.ftsColumns]
      exact hi.nodup
    · rw [hm.search.ftsColumns] at hc
      have hdecl := hi.declared c hc
      rw [hold] at hdecl
      rw [hm.textsOf hdecl htext]
      exact (hi.mirrors c hc).congr ⟨by rw [hm.search.postings], by rw [hm.search.docs],
        by rw [hm.search.ftsStats]⟩
    · rw [hm.search.ftsColumns] at hc
      rw [hm.search.postings, hm.search.docs, hm.search.ftsStats]
      exact hi.unlisted c hc

theorem FulltextInv.dropTableIn {name : String} {b : Bool} (hi : t.FulltextInv)
    (h : t.dropTableIn name = .ok (b, t')) : t'.FulltextInv := by
  rcases dropTableIn_eq_ok h with ⟨-, rfl⟩ | ⟨schema, -, rfl⟩
  · exact hi
  · exact fulltextInv_retainValidIn rfl hi.nodup (fun c _ htext ↦ by simp [isTextColumn] at htext)
      hi.unlisted

/-! ## Creating and dropping an index -/

theorem createFulltextIndexIn_eq_ok {table : String} {b : Bool}
    (h : t.createFulltextIndexIn table column = .ok (b, t')) :
    t' = t ∨ (column ∉ t.ftsColumns ∧ isTextColumn t.schema column = true ∧ ∃ s schema rows,
      s = { t.dropIndexData column with ftsColumns := t.ftsColumns ++ [column] } ∧
      s.scanAllIn schema = .ok rows ∧ rows.foldlM (indexRow column) s = .ok t') := by
  simp only [createFulltextIndexIn, Except.bind_eq_ok, Except.ofOption_eq_ok] at h
  obtain ⟨-, -, schema, hschema, h⟩ := h
  cases hc : schema.column column with
  | none => simp [hc, throw, throwThe, MonadExceptOf.throw] at h
  | some c =>
    rw [hc] at h
    simp only [Except.bind_eq_ok, Except.guardOr_eq_ok] at h
    obtain ⟨⟨⟩, hkind, h⟩ := h
    split at h
    · exact .inl (congrArg Prod.snd (Except.ok.inj h)).symm
    · rename_i hnot
      simp only [Except.bind_eq_ok] at h
      obtain ⟨rows, hrows, s, hloop, h⟩ := h
      obtain rfl : s = t' := congrArg Prod.snd (Except.ok.inj h)
      refine .inr ⟨hnot, ?_, _, schema, rows, rfl, hrows, hloop⟩
      rw [isTextColumn, hschema, Option.bind_some, hc]
      simpa using hkind.1

theorem indexRow_eq_ok {row : Row} {values : Properties} {kind : ColumnKind}
    (hrow : decodeSortable kind k = .ok row.pk ∧ row.values = values)
    (h : t.indexRow column row = .ok t') :
    (∃ text, textOf (some values) column = some text ∧ t.indexText column k text = .ok t') ∨
      (textOf (some values) column = none ∧ t' = t) := by
  rw [indexRow, hrow.2] at h
  split at h
  · rename_i text htext
    simp only [Except.bind_eq_ok, sortableEncode_eq_ok] at h
    obtain ⟨k', hk', h⟩ := h
    obtain rfl := sortableKey_of_decodeSortable hrow.1 hk'
    exact .inl ⟨text, htext, h⟩
  · rename_i hnone
    exact .inr ⟨hnone, (Except.ok.inj h).symm⟩

/-- **Backfill** indexes the texts of the rows. -/
theorem mirrors_of_backfill {schema : TableSchema} {rows : List Row}
    (hm : t.Mirrors column ∅) (hscan : t.scanAllIn schema = .ok rows)
    (h : rows.foldlM (indexRow column) t = .ok t') :
    t'.Mirrors column (t.textsOf column) ∧ ∀ c, c ≠ column → SameColumn t t' c := by
  obtain ⟨kind, -, hrows⟩ := scanAllIn_eq_ok hscan
  -- the index mirrors the entries read so far
  have hend := Except.foldlM_forall₂ (fun done s ↦
    (∀ m : OrdMap Bytes Properties, m.entries = done →
      s.Mirrors column (m.filterMap fun values ↦ textOf (some values) column)) ∧
    ∀ c, c ≠ column → SameColumn t s c) hrows h
    ⟨fun m hnil ↦ by rw [OrdMap.eq_empty_of_entries hnil]; exact hm,
      fun c _ ↦ ⟨rfl, rfl, rfl⟩⟩
    fun done row e s s' hpre hrow hP hstep ↦ by
      obtain ⟨k, values⟩ := e
      have hsorted : done.Pairwise fun a b ↦ a.1 < b.1 :=
        (t.rows.sorted.sublist hpre.sublist).sublist (List.sublist_append_left ..)
      have hcases := indexRow_eq_ok hrow hstep
      refine ⟨fun m hm ↦ ?_, fun c hc ↦ (hP.2 c hc).trans ?_⟩
      · obtain ⟨hnone, rfl⟩ := OrdMap.eq_insert_of_entries (m := ⟨done, hsorted⟩) hm
        have hbefore := hP.1 ⟨done, hsorted⟩ rfl
        rcases hcases with ⟨text, htext, hindex⟩ | ⟨hno, rfl⟩
        · have hset : (OrdMap.insert ⟨done, hsorted⟩ k values).filterMap
              (fun values ↦ textOf (some values) column) =
              (OrdMap.filterMap ⟨done, hsorted⟩ fun values ↦ textOf (some values) column).insert k
                text := by
            refine OrdMap.ext fun k' ↦ ?_
            by_cases hkk : k' = k
            · simp [hkk, htext]
            · simp [OrdMap.get?_insert_of_ne _ _ hkk]
          rw [hset]
          exact hbefore.indexText (by rw [OrdMap.get?_filterMap, hnone]; rfl) hindex
        · have hset : (OrdMap.insert ⟨done, hsorted⟩ k values).filterMap
              (fun values ↦ textOf (some values) column) =
              OrdMap.filterMap ⟨done, hsorted⟩ fun values ↦ textOf (some values) column := by
            refine OrdMap.ext fun k' ↦ ?_
            by_cases hkk : k' = k
            · simp [hkk, hno, hnone]
            · simp [OrdMap.get?_insert_of_ne _ _ hkk]
          rw [hset]
          exact hbefore
      · rcases hcases with ⟨text, -, hindex⟩ | ⟨-, rfl⟩
        · exact indexText_sameColumn hc hindex
        · exact ⟨rfl, rfl, rfl⟩
  exact ⟨hend.1 t.rows rfl, hend.2⟩

theorem FulltextInv.createFulltextIndexIn {table : String} {b : Bool} (hi : t.FulltextInv)
    (h : t.createFulltextIndexIn table column = .ok (b, t')) : t'.FulltextInv := by
  have honly := createFulltextIndexIn_fulltextOnly h
  rcases createFulltextIndexIn_eq_ok h with rfl | ⟨hnot, htext, s, schema, rows, hs, hscan, hloop⟩
  · exact hi
  have hcolumns : t'.ftsColumns = t.ftsColumns ++ [column] := by
    refine Except.foldlM_invariant (fun s ↦ s.ftsColumns = t.ftsColumns ++ [column]) hloop
      (by rw [hs]) fun row _ s s' hs hstep ↦ ?_
    rw [indexRow] at hstep
    split at hstep
    · rw [Except.bind_eq_ok] at hstep
      obtain ⟨k, -, hstep⟩ := hstep
      rw [(indexText_sameTable hstep).1.ftsColumns, hs]
    · rw [← Except.ok.inj hstep, hs]
  have hempty : s.Mirrors column ∅ := by
    rw [hs]
    exact mirrors_empty (Function.update_self ..) (Function.update_self ..)
      (Function.update_self ..)
  obtain ⟨hmirrors, hother⟩ := mirrors_of_backfill hempty hscan hloop
  have hsame : ∀ c, c ≠ column → SameColumn t t' c := fun c hc ↦ by
    refine SameColumn.trans ?_ (hother c hc)
    rw [hs]
    exact ⟨Function.update_of_ne hc .., Function.update_of_ne hc .., Function.update_of_ne hc ..⟩
  have htexts : ∀ c, t'.textsOf c = t.textsOf c := fun c ↦ by rw [textsOf, honly]; rfl
  refine ⟨?_, fun c hc ↦ ?_, fun c hc ↦ ?_, fun c hc ↦ ?_⟩
  · rw [hcolumns, List.nodup_append]
    exact ⟨hi.nodup, List.nodup_singleton _, fun a ha b hb ↦ by
      rw [List.mem_singleton.mp hb]
      exact fun hab ↦ hnot (hab ▸ ha)⟩
  · rw [htexts]
    by_cases hcc : c = column
    · subst hcc
      rw [hs] at hmirrors
      exact hmirrors
    · rw [hcolumns, List.mem_append, List.mem_singleton] at hc
      exact (hi.mirrors c (hc.resolve_right hcc)).congr (hsame c hcc)
  · rw [hcolumns, List.mem_append, List.mem_singleton, not_or] at hc
    rw [(hsame c hc.2).postings, (hsame c hc.2).docs, (hsame c hc.2).ftsStats]
    exact hi.unlisted c hc.1
  · have hschema : t'.schema = t.schema := by rw [honly]
    rw [hcolumns, List.mem_append, List.mem_singleton] at hc
    rw [hschema]
    rcases hc with hc | rfl
    · exact hi.declared c hc
    · exact htext

theorem FulltextInv.dropFulltextIndexIn (hi : t.FulltextInv) (column : String) :
    (t.dropFulltextIndexIn column).2.FulltextInv := by
  rw [TableStore.dropFulltextIndexIn]
  split
  · have hmem : ∀ {c}, c ∈ t.ftsColumns.erase column ↔ c ≠ column ∧ c ∈ t.ftsColumns :=
      hi.nodup.mem_erase_iff
    refine ⟨hi.nodup.erase _, fun c hc ↦ ?_, fun c hc ↦ ?_, fun c hc ↦ ?_⟩
    · obtain ⟨hne, hc⟩ := hmem.mp hc
      exact (hi.mirrors c hc).congr ⟨Function.update_of_ne hne .., Function.update_of_ne hne ..,
        Function.update_of_ne hne ..⟩
    · by_cases hcc : c = column
      · subst hcc
        simp [dropIndexData]
      · have hnot : c ∉ t.ftsColumns := fun hin ↦ hc (hmem.mpr ⟨hcc, hin⟩)
        simpa [dropIndexData, hcc] using hi.unlisted c hnot
    · exact hi.declared c (hmem.mp hc).2
  · exact hi

/-! ## Runs -/

/-- **Every operation keeps the full-text indexes in step.** -/
theorem FulltextInv.applyOp (hi : t.FulltextInv) {op : DbOp} (h : t.applyOp g op = .ok t') :
    t'.FulltextInv := by
  cases op with
  | rows ref op =>
    simp only [TableStore.applyOp, Except.bind_eq_ok] at h
    obtain ⟨-, -, schema, -, h⟩ := h
    exact fulltextInv_of_rowSteps hi
      (applyRowOp_steps (fun _ ↦ trivial) (fun _ _ _ _ ↦ trivial) op.gives_true h)
  | createTable schema =>
    obtain ⟨⟨b, s⟩, hs, rfl⟩ := Except.map_eq_ok.mp h
    rcases createTableIn_eq_ok hs with ⟨hnone, hadopt⟩ | ⟨-, rfl⟩
    · exact hi.adoptIn hnone hadopt
    · exact hi
  | ensureTable schema => exact hi.ensureTableIn h
  | dropTable name =>
    obtain ⟨⟨b, s⟩, hs, rfl⟩ := Except.map_eq_ok.mp h
    exact hi.dropTableIn hs
  | createIndex table column =>
    obtain ⟨old, schema, -, -, h⟩ := createIndex_eq_ok h
    exact hi.ensureTableIn h
  | dropIndex table column =>
    obtain ⟨old, schema, -, -, h⟩ := dropIndex_eq_ok h
    exact hi.ensureTableIn h
  | createFulltextIndex table column =>
    obtain ⟨⟨b, s⟩, hs, rfl⟩ := Except.map_eq_ok.mp h
    exact hi.createFulltextIndexIn hs
  | dropFulltextIndex table column =>
    obtain rfl := Except.ok.inj h
    exact hi.dropFulltextIndexIn column
  | createVectorIndex table column options =>
    obtain ⟨⟨b, s⟩, hs, rfl⟩ := Except.map_eq_ok.mp h
    exact hi.vectorsOnly (createVectorIndexIn_vectorsOnly hs)
  | dropVectorIndex table column =>
    obtain rfl := Except.ok.inj h
    exact hi.vectorsOnly (t.dropVectorIndexIn_vectorsOnly column)

/-- A text whose number of tokens fits a `u32`. -/
def ShortText : PropValue → Prop
  | .str s => (tokenize s).length < 2 ^ 32
  | _ => True

/-- What a full-text index promises of a column. -/
structure ColumnMirrored (t : TableStore) (column : String) : Prop where
  /-- One posting for each row with a text and each term of it. -/
  postings : ∀ key n, (t.postings column).get? key = some n ↔
    ∃ k values text term, t.rows.get? k = some values ∧
      textOf (some values) column = some text ∧ term ∈ tokenize text ∧
      key = postingsKey term k ∧ n = (tokenize text).count term
  /-- One document for each row with a text. -/
  docs : ∀ k n, (t.docs column).get? k = some n ↔
    ∃ values text, t.rows.get? k = some values ∧ textOf (some values) column = some text ∧
      n = (tokenize text).length
  /-- The number of these rows and of their tokens. -/
  stats : t.loadStats column =
    ((t.textsOf column).size, ((t.textsOf column).entries.map fun e ↦ (tokenize e.2).length).sum)

/-- The full-text state mirrors the table. -/
structure FulltextMirrored (t : TableStore) : Prop where
  listed : ∀ c ∈ t.ftsColumns, t.ColumnMirrored c
  unlisted : ∀ c, c ∉ t.ftsColumns → t.postings c = ∅ ∧ t.docs c = ∅ ∧ t.ftsStats c = none

theorem columnMirrored_iff (hm : t.Mirrors column (t.textsOf column)) : t.ColumnMirrored column ↔
    ∀ k values text, t.rows.get? k = some values → textOf (some values) column = some text →
      (tokenize text).length < 2 ^ 32 := by
  have hget : ∀ k text, (t.textsOf column).get? k = some text ↔
      ∃ values, t.rows.get? k = some values ∧ textOf (some values) column = some text := by
    intro k text
    rw [textsOf, OrdMap.get?_filterMap, Option.bind_eq_some_iff]
  constructor
  · intro h k values text hrow htext
    have hdoc := hm.docs k
    rw [(hget k text).mpr ⟨values, hrow, htext⟩, Option.map_some] at hdoc
    obtain ⟨values', text', hrow', htext', hn⟩ := (h.docs k _).mp hdoc
    rw [hrow, Option.some_inj] at hrow'
    rw [← hrow', htext, Option.some_inj] at htext'
    rw [← htext'] at hn
    exact hn ▸ Nat.mod_lt _ (by norm_num)
  · intro h
    refine ⟨fun key n ↦ ?_, fun k n ↦ ?_, hm.stats⟩
    · rw [hm.postings, IsPosting]
      simp only [hget]
      constructor
      · rintro ⟨k, text, term, ⟨values, hrow, htext⟩, hrest⟩
        exact ⟨k, values, text, term, hrow, htext, hrest⟩
      · rintro ⟨k, values, text, term, hrow, htext, hrest⟩
        exact ⟨k, text, term, ⟨values, hrow, htext⟩, hrest⟩
    · rw [hm.docs, Option.map_eq_some_iff]
      simp only [hget]
      constructor
      · rintro ⟨text, ⟨values, hrow, htext⟩, rfl⟩
        exact ⟨values, text, hrow, htext, Nat.mod_eq_of_lt (h k values text hrow htext)⟩
      · rintro ⟨values, text, hrow, htext, rfl⟩
        exact ⟨text, ⟨values, hrow, htext⟩, Nat.mod_eq_of_lt (h k values text hrow htext)⟩

/-- **Full-text indexes mirror the table** in every committed state, as long as the texts given to
the database have fewer than `2 ^ 32` tokens. -/
theorem fulltext_mirrored {r : RelRun} (h : RelRun.Reachable g (DbOp.Gives ShortText) r)
    (n : String) : (r.store n).FulltextMirrored := by
  obtain ⟨hinv, hholds⟩ := h.induction (fun t _ ↦ t.FulltextInv ∧ t.HoldsOf ShortText)
    ⟨fulltextInv_fresh, holdsOf_fresh⟩
    (fun t a op t' hop hi hstep ↦
      ⟨hi.1.applyOp hstep, hi.2.applyOp (fun _ ↦ trivial) hop hstep⟩) n
  refine ⟨fun c hc ↦ (columnMirrored_iff (hinv.mirrors c hc)).mpr ?_, hinv.unlisted⟩
  intro k values text hrow htext
  rw [textOf] at htext
  split at htext
  · rename_i s hs
    obtain rfl := Option.some.inj htext
    exact (hholds.rows k values hrow).values c _ hs
  · simp at htext

end TableStore

/-! ## Concrete runs -/

namespace TableStore

theorem exists_termFrequencies {tokens : List String} (h : ∀ term, tokens.count term < 2 ^ 32) :
    ∃ tf, termFrequencies tokens = .ok tf := by
  induction tokens using List.reverseRecOn with
  | nil => exact ⟨∅, rfl⟩
  | append_singleton tokens a ih =>
    obtain ⟨tf, htf⟩ := ih fun term ↦
      lt_of_le_of_lt (List.Sublist.count_le _ (List.sublist_append_left ..)) (h term)
    have hcount := getD_eq_count (fun _ _ ↦ get?_termFrequencies htf) a
    have hlt : tokens.count a + 1 < 2 ^ 32 := by simpa [List.count_append] using h a
    refine ⟨tf.insert a (tokens.count a + 1), ?_⟩
    rw [termFrequencies] at htf
    rw [termFrequencies, List.foldlM_append, htf]
    simp only [Except.ok_bind, List.foldlM_cons, countTerm, hcount, hlt, if_true]
    rfl

end TableStore

namespace RelRun

/-- A table of notes. -/
def notesSchema : TableSchema := .ofRelSchema
  { name := "notes", columns := [("id", .int), ("body", .str)], primaryKey := "id",
    autoIncrementPk := false, indexedColumns := [] }

/-- A row with a text. -/
def note (text : String) : Properties := OrdMap.insert ∅ "body" (.str text)

/-- Register the table, index its texts, and insert a row. -/
def notesTxs (text : String) : List (List DbOp) :=
  [[.createTable notesSchema, .createFulltextIndex "notes" "body"],
    [.rows ⟨notesSchema, true⟩ (.insertWithPkBulk [(.int 1, note text)] .error)]]

/-- The key of the row. -/
def noteKey : Bytes := Bytes.be 8 (flipSign 1).toNat

theorem fulltext_mirrored_note : ∃ r : RelRun,
    @Reachable Unicode.ascii ℕ _ Ann.flat (DbOp.Gives (@TableStore.ShortText Unicode.ascii)) r ∧
      (r.store "notes").ftsColumns = ["body"] ∧
      ((r.store "notes").docs "body").get? noteKey = some 3 ∧
      @TableStore.FulltextMirrored Unicode.ascii (r.store "notes") := by
  obtain ⟨r, hr, hp⟩ := @exists_reachable Unicode.ascii ℕ _ Ann.flat
    (DbOp.Gives (@TableStore.ShortText Unicode.ascii)) (notesTxs "a b a")
    (fun r ↦ decide ((r.store "notes").ftsColumns = ["body"]) &&
      decide (((r.store "notes").docs "body").get? noteKey = some 3))
    (by
      intro ops hops op hop
      simp only [notesTxs, List.mem_cons, List.not_mem_nil, or_false] at hops
      rcases hops with rfl | rfl <;>
        simp only [List.mem_cons, List.not_mem_nil, or_false] at hop
      · rcases hop with rfl | rfl
        · exact ⟨by simp [DbOp.Gives, TableSchema.Defaults, notesSchema, TableSchema.ofRelSchema],
            by decide +kernel⟩
        · exact ⟨trivial, by decide +kernel⟩
      · subst hop
        refine ⟨⟨by simp [TableSchema.Defaults, notesSchema, TableSchema.ofRelSchema], ?_⟩,
          by decide +kernel⟩
        intro e he
        rw [List.mem_singleton] at he
        subst he
        refine ⟨trivial, fun c v hv ↦ ?_⟩
        have hv' := OrdMap.mem_entries.mpr hv
        obtain ⟨-, rfl⟩ : c = "body" ∧ v = .str "a b a" := by
          simpa [note, OrdMap.mem_entries_insert] using hv'
        exact show (@tokenize Unicode.ascii "a b a").length < 2 ^ 32 from by decide +kernel)
    (by decide +kernel)
  simp only [Bool.and_eq_true, decide_eq_true_eq] at hp
  exact ⟨r, hr, hp.1, hp.2, @TableStore.fulltext_mirrored Unicode.ascii ℕ _ Ann.flat r hr "notes"⟩

/-- `a b a b …`. -/
def abText (n : ℕ) : String := String.ofList (List.replicate n ['a', ' ', 'b', ' ']).flatten

theorem tokenize_abText (n : ℕ) :
    @tokenize Unicode.ascii (abText n) = (List.replicate n ["a", "b"]).flatten := by
  have htext : (List.replicate n ['a', ' ', 'b', ' ']).flatten =
      (List.replicate n [['a'], ['b']]).flatten.flatMap (· ++ [' ']) := by
    induction n with
    | zero => rfl
    | succ n ih =>
      rw [List.replicate_succ, List.replicate_succ, List.flatten_cons, List.flatten_cons,
        List.flatMap_append, ih]
      rfl
  have hwords : ∀ w ∈ (List.replicate n [['a'], ['b']]).flatten,
      w ≠ [] ∧ ∀ c ∈ w, c.isAlphanum = true := fun w hw ↦ by
    obtain ⟨l, hl, hw⟩ := List.mem_flatten.mp hw
    rw [List.eq_of_mem_replicate hl] at hw
    simp only [List.mem_cons, List.not_mem_nil, or_false] at hw
    rcases hw with rfl | rfl <;> simp
  rw [abText, htext, tokenize_words hwords, List.map_flatten, List.map_replicate]
  rfl

theorem count_abText_le (n : ℕ) (term : String) :
    (List.replicate n ["a", "b"]).flatten.count term ≤ n := by
  rw [List.count_flatten, List.map_replicate, List.sum_replicate_nat]
  have hle : ["a", "b"].count term ≤ 1 := List.nodup_iff_count_le_one.mp (by decide) term
  calc n * ["a", "b"].count term ≤ n * 1 := Nat.mul_le_mul_left n hle
    _ = n := Nat.mul_one n

/-- The table after registration and the creation of the index. -/
private def notesIndexed : TableStore :=
  { ({ schema := some notesSchema } : TableStore).dropIndexData "body" with
    ftsColumns := ["body"] }

private def notesIndexedRun : RelRun where
  store := Function.update (Function.update RelStore.fresh "notes" { schema := some notesSchema })
    "notes" notesIndexed
  adopted := Function.update (Function.update (fun _ ↦ none) "notes" (some {})) "notes" (some {})

private theorem runTxs_notes {text : String} {t : TableStore}
    (h : @TableStore.indexText Unicode.ascii
      { notesIndexed with rows := OrdMap.insert ∅ noteKey (note text) } "body" noteKey text =
        .ok t) :
    ∃ r, @runTxs Unicode.ascii ℕ _ Ann.flat (notesTxs text) = .ok r ∧ r.store "notes" = t := by
  have hinsert : @TableStore.applyRowOp Unicode.ascii ℕ _ Ann.flat notesIndexed notesSchema
      (.insertWithPkBulk [(.int 1, note text)] .error) = .ok t := by
    have hrun : @TableStore.applyRowOp Unicode.ascii ℕ _ Ann.flat notesIndexed notesSchema
        (.insertWithPkBulk [(.int 1, note text)] .error) =
        (@TableStore.indexText Unicode.ascii
          { notesIndexed with rows := OrdMap.insert ∅ noteKey (note text) } "body" noteKey text >>=
            pure) >>= pure := rfl
    rw [hrun, h]
    rfl
  have hsetup : [DbOp.createTable notesSchema, .createFulltextIndex "notes" "body"].foldlM
      (@apply Unicode.ascii ℕ _ Ann.flat) fresh = .ok notesIndexedRun := rfl
  have happly : @TableStore.applyOp Unicode.ascii ℕ _ Ann.flat (notesIndexedRun.store "notes")
      (.rows ⟨notesSchema, true⟩ (.insertWithPkBulk [(.int 1, note text)] .error)) = .ok t := by
    rw [← hinsert]
    rfl
  obtain ⟨r, hr, hstore⟩ := @exists_apply Unicode.ascii ℕ _ Ann.flat _
    (.rows ⟨notesSchema, true⟩ (.insertWithPkBulk [(.int 1, note text)] .error)) _ happly
  refine ⟨r, ?_, hstore⟩
  unfold runTxs
  rw [notesTxs, List.foldlM_cons, hsetup, Except.ok_bind, List.foldlM_cons, List.foldlM_cons, hr]
  rfl

private theorem notesTxs_names (text : String) : ∀ ops ∈ notesTxs text, ∀ op ∈ ops,
    True ∧ checkIdentifier "table" op.table = .ok () := by
  intro ops hops op hop
  simp only [notesTxs, List.mem_cons, List.not_mem_nil, or_false] at hops
  rcases hops with rfl | rfl <;> simp only [List.mem_cons, List.not_mem_nil, or_false] at hop
  · rcases hop with rfl | rfl <;> exact ⟨trivial, by decide +kernel⟩
  · subst hop
    exact ⟨trivial, show checkIdentifier "table" "notes" = .ok () from by decide +kernel⟩

theorem exists_runTxs_notes (text : String)
    (hcount : ∀ term, (@tokenize Unicode.ascii text).count term < 2 ^ 32)
    (hlen : (@tokenize Unicode.ascii text).length < 2 ^ 64) :
    ∃ r, @runTxs Unicode.ascii ℕ _ Ann.flat (notesTxs text) = .ok r ∧
      (r.store "notes").rows = OrdMap.insert ∅ noteKey (note text) ∧
      (r.store "notes").ftsColumns = ["body"] := by
  obtain ⟨t, ht⟩ : ∃ t, @TableStore.indexText Unicode.ascii
      { notesIndexed with rows := OrdMap.insert ∅ noteKey (note text) } "body" noteKey text =
        .ok t := by
    obtain ⟨tf, htf⟩ := TableStore.exists_termFrequencies hcount
    have hterms : checkedAdd 0 (@tokenize Unicode.ascii text).length =
        .ok (@tokenize Unicode.ascii text).length := by
      rw [checkedAdd_eq_ok]
      exact ⟨by omega, (Nat.zero_add _).symm⟩
    have hstats : TableStore.loadStats
        { notesIndexed with rows := OrdMap.insert ∅ noteKey (note text) } "body" = (0, 0) := rfl
    unfold TableStore.indexText
    simp only [htf, Except.ok_bind, hstats, hterms]
    exact ⟨_, rfl⟩
  obtain ⟨r, hr, rfl⟩ := runTxs_notes ht
  obtain ⟨hsame, -⟩ := @TableStore.indexText_sameTable _ _ Unicode.ascii _ _ _ ht
  exact ⟨r, hr, hsame.rows, hsame.ftsColumns⟩

theorem fulltextInv_notes {text : String} {r : RelRun}
    (hr : @runTxs Unicode.ascii ℕ _ Ann.flat (notesTxs text) = .ok r) :
    @Reachable Unicode.ascii ℕ _ Ann.flat (fun _ ↦ True) r ∧
      @TableStore.FulltextInv Unicode.ascii (r.store "notes") := by
  have hreach := @reachable_of_runTxs Unicode.ascii ℕ _ Ann.flat (fun _ ↦ True) _ r
    (notesTxs_names _) hr
  exact ⟨hreach, @Reachable.induction Unicode.ascii ℕ _ Ann.flat _ r
    (fun t _ ↦ @TableStore.FulltextInv Unicode.ascii t) hreach
    (@TableStore.fulltextInv_fresh Unicode.ascii)
    (fun t a op t' _ hi hstep ↦
      @TableStore.FulltextInv.applyOp Unicode.ascii _ _ ℕ _ Ann.flat hi op hstep) "notes"⟩

/-- A text of `2 ^ 32` or more tokens is stored with a smaller token count. -/
private theorem abText_not_mirrored {n : ℕ} (hn : 2 ^ 32 ≤ n * 2) (hn' : n < 2 ^ 32) :
    ∃ r : RelRun, @runTxs Unicode.ascii ℕ _ Ann.flat (notesTxs (abText n)) = .ok r ∧
      @Reachable Unicode.ascii ℕ _ Ann.flat (fun _ ↦ True) r ∧
      ¬@TableStore.FulltextMirrored Unicode.ascii (r.store "notes") := by
  have hlen : (@tokenize Unicode.ascii (abText n)).length = n * 2 := by
    rw [tokenize_abText, List.length_flatten, List.map_replicate, List.sum_replicate_nat]
    rfl
  obtain ⟨r, hr, hrows, hcolumns⟩ := exists_runTxs_notes (abText n)
    (fun term ↦ by
      rw [tokenize_abText]
      exact lt_of_le_of_lt (count_abText_le _ term) hn') (by omega)
  obtain ⟨hreach, hinv⟩ := fulltextInv_notes hr
  refine ⟨r, hr, hreach, fun hm ↦ ?_⟩
  have hbody : "body" ∈ (r.store "notes").ftsColumns := by
    rw [hcolumns]
    exact List.mem_singleton_self _
  have hlt := (@TableStore.columnMirrored_iff Unicode.ascii _ _
    (@TableStore.FulltextInv.mirrors Unicode.ascii _ hinv _ hbody)).mp
    (@TableStore.FulltextMirrored.listed Unicode.ascii _ hm _ hbody) noteKey (note (abText n))
    (abText n)
    (by rw [hrows]; exact OrdMap.get?_insert_self ..)
    (by rw [TableStore.textOf, Option.bind_some, note, OrdMap.get?_insert_self])
  rw [hlen] at hlt
  exact absurd hn (not_le.mpr hlt)

/-- A text of `2 ^ 32` tokens breaks the documents table. -/
theorem long_text_not_mirrored : ∃ r : RelRun,
    @runTxs Unicode.ascii ℕ _ Ann.flat (notesTxs (abText (2 ^ 31))) = .ok r ∧
      @Reachable Unicode.ascii ℕ _ Ann.flat (fun _ ↦ True) r ∧
      ¬@TableStore.FulltextMirrored Unicode.ascii (r.store "notes") :=
  abText_not_mirrored (by norm_num) (by norm_num)

end RelRun
