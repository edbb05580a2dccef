import Bkndb.Relational.Consistent
import Bkndb.Relational.Write

/-!
# What a write does to one row

Insert, replace, update and delete maintain the rows and the indexes by different code. This module
says once what any of them did when it succeeded: one key of the row table changed, the index of
each indexed column followed, and the search indexes saw the change. Every invariant of a table is
derived from this.

## How it is used

`RowChange` is a relation between two states of a table, the key, and the values before and after.
`writeRowIn_rowChange`, `deleteRowIn_rowChange` and `updateRowIn_rowChange` say that the three
writes are instances of it. The invariants, the search indexes, the counter and atomicity are then
proved about it and not about the writes.
-/

open PropValue

/-! ## Index entries -/

/-- The index entry of a row in a column. -/
def entryOf (schema : TableSchema) (column : String) (row : Row) : Option Bytes :=
  (indexable row schema column).bind fun v ↦ (indexKey v row.pk).toOption

theorem entryOf_eq_some {schema : TableSchema} {column : String} {row : Row} {k : Bytes} :
    entryOf schema column row = some k ↔
      ∃ v, indexable row schema column = some v ∧ indexKey v row.pk = .ok k := by
  rw [entryOf, Option.bind_eq_some_iff]
  refine exists_congr fun v ↦ and_congr_right fun _ ↦ ?_
  cases indexKey v row.pk with
  | error e => simp [Except.toOption]
  | ok k' => simp [Except.toOption]

/-- Put an entry in an index. -/
def addEntry (e : Option Bytes) (m : OrdMap Bytes Unit) : OrdMap Bytes Unit :=
  match e with
  | some k => m.insert k ()
  | none => m

/-- Take an entry out of an index. -/
def removeEntry (e : Option Bytes) (m : OrdMap Bytes Unit) : OrdMap Bytes Unit :=
  match e with
  | some k => m.erase k
  | none => m

@[simp] theorem get?_addEntry (e : Option Bytes) (m : OrdMap Bytes Unit) (k : Bytes) :
    (addEntry e m).get? k = if e = some k then some () else m.get? k := by
  cases e with
  | none => simp [addEntry]
  | some k' =>
    rw [addEntry, OrdMap.get?_insert]
    by_cases h : k = k'
    · simp [h]
    · simp [h, Ne.symm h]

@[simp] theorem get?_removeEntry (e : Option Bytes) (m : OrdMap Bytes Unit) (k : Bytes) :
    (removeEntry e m).get? k = if e = some k then none else m.get? k := by
  cases e with
  | none => simp [removeEntry]
  | some k' =>
    rw [removeEntry, OrdMap.get?_erase]
    by_cases h : k = k'
    · simp [h]
    · simp [h, Ne.symm h]

/-- A row has an index entry wherever it has a value to index. -/
def Keyable (schema : TableSchema) (column : String) (row : Row) : Prop :=
  ∀ v, indexable row schema column = some v → ∃ k, indexKey v row.pk = .ok k

namespace TableStore

/-! ## Loops over the indexed columns

The source loops over the list of indexed columns, in which a static schema may name a column
twice. Treating a column again must change nothing, and does not. -/

/-- A loop that treats each column's index by itself. A column may be listed twice, so treating it
again must change nothing. -/
theorem foldlM_index {step : TableStore → String → Except BknError TableStore}
    {f : String → OrdMap Bytes Unit → OrdMap Bytes Unit} {P : String → Prop}
    (hf : ∀ c m, f c (f c m) = f c m)
    (hstep : ∀ s c s', step s c = .ok s' →
      P c ∧ s' = { s with index := Function.update s.index c (f c (s.index c)) })
    {columns : List String} {t t' : TableStore} (h : columns.foldlM step t = .ok t') :
    (∀ c ∈ columns, P c) ∧
      t' = { t with index := fun c ↦ if c ∈ columns then f c (t.index c) else t.index c } := by
  induction columns generalizing t with
  | nil =>
    obtain rfl : t = t' := by simpa [pure, Except.pure] using h
    simp
  | cons c columns ih =>
    rw [List.foldlM_cons, Except.bind_eq_ok] at h
    obtain ⟨s, hs, hrest⟩ := h
    obtain ⟨hc, rfl⟩ := hstep t c s hs
    obtain ⟨hcs, rfl⟩ := ih hrest
    refine ⟨by simpa using ⟨hc, hcs⟩, ?_⟩
    congr 1
    funext c'
    by_cases hcc : c' = c
    · subst hcc
      by_cases hin : c' ∈ columns
      · simp [hin, hf]
      · simp [hin]
    · by_cases hin : c' ∈ columns
      · simp [hin, hcc]
      · simp [hin, hcc]

variable {schema : TableSchema} {t t' : TableStore}

theorem addIndexEntry_eq_ok {row : Row} {column : String}
    (h : t.addIndexEntry schema row column = .ok t') :
    Keyable schema column row ∧ t' = { t with
      index := Function.update t.index column (addEntry (entryOf schema column row)
        (t.index column)) } := by
  rw [addIndexEntry] at h
  split at h
  · rename_i hnone
    obtain rfl := Except.ok.inj h
    refine ⟨fun v hv ↦ by simp [hnone] at hv, ?_⟩
    rw [entryOf, hnone, Option.bind_none, addEntry, Function.update_eq_self]
  · rename_i v hv
    rw [Except.bind_eq_ok] at h
    obtain ⟨k, hk, h⟩ := h
    obtain rfl := Except.ok.inj h
    refine ⟨fun w hw ↦ ⟨k, ?_⟩, ?_⟩
    · rw [hv, Option.some_inj] at hw
      exact hw ▸ hk
    · rw [entryOf_eq_some.mpr ⟨v, hv, hk⟩, addEntry]

theorem removeIndexEntry_eq_ok {row : Row} {column : String}
    (h : t.removeIndexEntry schema row column = .ok t') :
    Keyable schema column row ∧ t' = { t with
      index := Function.update t.index column (removeEntry (entryOf schema column row)
        (t.index column)) } := by
  rw [removeIndexEntry] at h
  split at h
  · rename_i hnone
    obtain rfl := Except.ok.inj h
    refine ⟨fun v hv ↦ by simp [hnone] at hv, ?_⟩
    rw [entryOf, hnone, Option.bind_none, removeEntry, Function.update_eq_self]
  · rename_i v hv
    rw [Except.bind_eq_ok] at h
    obtain ⟨k, hk, h⟩ := h
    obtain rfl := Except.ok.inj h
    refine ⟨fun w hw ↦ ⟨k, ?_⟩, ?_⟩
    · rw [hv, Option.some_inj] at hw
      exact hw ▸ hk
    · rw [entryOf_eq_some.mpr ⟨v, hv, hk⟩, removeEntry]

/-- Whether an update leaves a column's index alone. -/
def sameIndexable (schema : TableSchema) (column : String) (old new : Row) : Bool :=
  eqvOption (indexable old schema column) (indexable new schema column)

/-- The effect of an update on a column's index. -/
def replaceEntry (schema : TableSchema) (old new : Row) (column : String)
    (m : OrdMap Bytes Unit) : OrdMap Bytes Unit :=
  if sameIndexable schema column old new then m
  else addEntry (entryOf schema column new) (removeEntry (entryOf schema column old) m)

theorem updateIndexEntry_eq_ok {old new : Row} {column : String}
    (h : t.updateIndexEntry schema old new column = .ok t') :
    (sameIndexable schema column old new = true ∨ Keyable schema column new) ∧
      t' = { t with
        index := Function.update t.index column (replaceEntry schema old new column
          (t.index column)) } := by
  rw [updateIndexEntry] at h
  split at h
  · rename_i hsame
    obtain rfl := Except.ok.inj h
    refine ⟨.inl hsame, ?_⟩
    rw [replaceEntry, sameIndexable, if_pos hsame, Function.update_eq_self]
  · rename_i hsame
    rw [Except.bind_eq_ok] at h
    obtain ⟨s, hs, h⟩ := h
    obtain ⟨-, rfl⟩ := removeIndexEntry_eq_ok hs
    obtain ⟨henc, rfl⟩ := addIndexEntry_eq_ok h
    refine ⟨.inr henc, ?_⟩
    rw [replaceEntry, sameIndexable, if_neg hsame]
    simp

theorem foldlM_addIndexEntry {row : Row} {columns : List String}
    (h : columns.foldlM (addIndexEntry schema row) t = .ok t') :
    (∀ c ∈ columns, Keyable schema c row) ∧
      t' = { t with index := fun c ↦
        if c ∈ columns then addEntry (entryOf schema c row) (t.index c) else t.index c } := by
  refine foldlM_index (f := fun c ↦ addEntry (entryOf schema c row)) (fun c m ↦ ?_)
    (fun s c s' ↦ addIndexEntry_eq_ok) h
  refine OrdMap.ext fun k ↦ ?_
  simp only [get?_addEntry]
  split <;> rfl

theorem foldlM_removeIndexEntry {row : Row} {columns : List String}
    (h : columns.foldlM (removeIndexEntry schema row) t = .ok t') :
    t' = { t with index := fun c ↦
      if c ∈ columns then removeEntry (entryOf schema c row) (t.index c) else t.index c } := by
  refine (foldlM_index (f := fun c ↦ removeEntry (entryOf schema c row)) (fun c m ↦ ?_)
    (fun s c s' ↦ removeIndexEntry_eq_ok) h).2
  refine OrdMap.ext fun k ↦ ?_
  simp only [get?_removeEntry]
  split <;> rfl

theorem foldlM_updateIndexEntry {old new : Row} {columns : List String}
    (h : columns.foldlM (updateIndexEntry schema old new) t = .ok t') :
    (∀ c ∈ columns, sameIndexable schema c old new = true ∨ Keyable schema c new) ∧
      t' = { t with index := fun c ↦
        if c ∈ columns then replaceEntry schema old new c (t.index c) else t.index c } := by
  refine foldlM_index (f := replaceEntry schema old new) (fun c m ↦ ?_)
    (fun s c s' ↦ updateIndexEntry_eq_ok) h
  rw [replaceEntry, replaceEntry]
  split
  · rfl
  · refine OrdMap.ext fun k ↦ ?_
    simp only [get?_addEntry, get?_removeEntry]
    split_ifs <;> rfl

/-! ## The search indexes -/

/-- Everything but the contents of the search indexes is as before. -/
structure SameTable (t t' : TableStore) : Prop where
  schema : t'.schema = t.schema
  counter : t'.counter = t.counter
  rows : t'.rows = t.rows
  index : t'.index = t.index
  ftsColumns : t'.ftsColumns = t.ftsColumns
  annColumns : t'.annColumns = t.annColumns

theorem SameTable.refl (t : TableStore) : SameTable t t := ⟨rfl, rfl, rfl, rfl, rfl, rfl⟩

theorem SameTable.trans {t t' t'' : TableStore} (h : SameTable t t') (h' : SameTable t' t'') :
    SameTable t t'' :=
  ⟨h'.schema.trans h.schema, h'.counter.trans h.counter, h'.rows.trans h.rows,
    h'.index.trans h.index, h'.ftsColumns.trans h.ftsColumns, h'.annColumns.trans h.annColumns⟩

section Search

variable [Unicode] {D : Type} [LinearOrder D] {g : Ann.Geometry D}

omit [Unicode] in
theorem annColumnChange_eq_ok {table : String} {pk : Bytes} {old new : Option Properties}
    {column : String} (h : annColumnChange g table pk old new t column = .ok t') :
    SameTable t t' ∧ t' = { t with ann := t'.ann } := by
  rw [annColumnChange] at h
  split at h
  · obtain rfl := Except.ok.inj h
    exact ⟨SameTable.refl t, rfl⟩
  · simp only [Except.bind_eq_ok, Except.ofOption_eq_ok] at h
    obtain ⟨i, -, i', -, h⟩ := h
    obtain rfl := Except.ok.inj h
    exact ⟨⟨rfl, rfl, rfl, rfl, rfl, rfl⟩, rfl⟩

theorem indexText_sameTable {column : String} {pk : Bytes} {text : String}
    (h : t.indexText column pk text = .ok t') : SameTable t t' ∧ t'.ann = t.ann := by
  simp only [indexText, Except.bind_eq_ok] at h
  obtain ⟨tf, -, docs, -, terms, -, h⟩ := h
  obtain rfl := Except.ok.inj h
  exact ⟨⟨rfl, rfl, rfl, rfl, rfl, rfl⟩, rfl⟩

theorem unindexText_sameTable {column : String} {pk : Bytes} {text : String}
    (h : t.unindexText column pk text = .ok t') : SameTable t t' ∧ t'.ann = t.ann := by
  simp only [unindexText, Except.bind_eq_ok] at h
  obtain ⟨tf, -, h⟩ := h
  obtain rfl := Except.ok.inj h
  exact ⟨⟨rfl, rfl, rfl, rfl, rfl, rfl⟩, rfl⟩

/-- What the change of one full-text column does: the old text goes, the new one comes. -/
theorem ftsColumnChange_eq_ok {pk : Bytes} {old new : Option Properties} {column : String}
    (h : ftsColumnChange pk old new t column = .ok t') :
    (textOf old column = textOf new column ∧ t' = t) ∨
      (textOf old column ≠ textOf new column ∧ ∃ s,
        ((∃ text, textOf old column = some text ∧ t.unindexText column pk text = .ok s) ∨
          (textOf old column = none ∧ s = t)) ∧
        ((∃ text, textOf new column = some text ∧ s.indexText column pk text = .ok t') ∨
          (textOf new column = none ∧ t' = s))) := by
  rw [ftsColumnChange] at h
  split at h
  · rename_i heq
    exact .inl ⟨heq, (Except.ok.inj h).symm⟩
  · rename_i hne
    dsimp only at h
    refine .inr ⟨hne, ?_⟩
    -- what is unindexed, then what is indexed
    cases ho : textOf old column with
    | none =>
      rw [ho] at h
      refine ⟨t, .inr ⟨rfl, rfl⟩, ?_⟩
      cases hn : textOf new column with
      | none =>
        rw [hn] at h
        exact .inr ⟨rfl, (Except.ok.inj h).symm⟩
      | some text =>
        rw [hn] at h
        exact .inl ⟨text, rfl, h⟩
    | some text =>
      rw [ho, Except.bind_eq_ok] at h
      obtain ⟨s, hs, h⟩ := h
      refine ⟨s, .inl ⟨text, rfl, hs⟩, ?_⟩
      cases hn : textOf new column with
      | none =>
        rw [hn] at h
        exact .inr ⟨rfl, (Except.ok.inj h).symm⟩
      | some text =>
        rw [hn] at h
        exact .inl ⟨text, rfl, h⟩

theorem ftsColumnChange_sameTable {pk : Bytes} {old new : Option Properties} {column : String}
    (h : ftsColumnChange pk old new t column = .ok t') : SameTable t t' ∧ t'.ann = t.ann := by
  rcases ftsColumnChange_eq_ok h with ⟨-, rfl⟩ | ⟨-, s, hs, hs'⟩
  · exact ⟨SameTable.refl _, rfl⟩
  · have h₁ : SameTable t s ∧ s.ann = t.ann := by
      rcases hs with ⟨text, -, hs⟩ | ⟨-, rfl⟩
      · exact unindexText_sameTable hs
      · exact ⟨SameTable.refl _, rfl⟩
    have h₂ : SameTable s t' ∧ t'.ann = s.ann := by
      rcases hs' with ⟨text, -, hs⟩ | ⟨-, rfl⟩
      · exact indexText_sameTable hs
      · exact ⟨SameTable.refl _, rfl⟩
    exact ⟨h₁.1.trans h₂.1, h₂.2.trans h₁.2⟩

/-- What the search indexes saw of a row change: the vector columns first, then the texts. -/
theorem onRowChange_eq_ok {schema : TableSchema} {pk : PropValue} {k : Bytes}
    {old new : Option Properties} (hk : sortableKey pk = some k)
    (h : t.onRowChange g schema pk old new = .ok t') :
    ∃ s, t.annColumns.foldlM (annColumnChange g schema.name k old new) t = .ok s ∧
      SameTable t s ∧ s = { t with ann := s.ann } ∧
      s.ftsColumns.foldlM (ftsColumnChange k old new) s = .ok t' ∧
      SameTable s t' ∧ t'.ann = s.ann := by
  rw [onRowChange] at h
  split at h
  · rename_i hempty
    obtain rfl := Except.ok.inj h
    refine ⟨t, ?_, SameTable.refl t, rfl, ?_, SameTable.refl t, rfl⟩
    · rw [hempty.2]
      rfl
    · rw [hempty.1]
      rfl
  · rw [sortableEncode_eq_ok.mpr hk, Except.ok_bind, Except.bind_eq_ok] at h
    obtain ⟨s, hs, h⟩ := h
    have hann : SameTable t s ∧ s = { t with ann := s.ann } := by
      refine Except.foldlM_invariant (fun s ↦ SameTable t s ∧ s = { t with ann := s.ann }) hs
        ⟨SameTable.refl t, rfl⟩ fun c _ s s' hP hs' ↦ ?_
      obtain ⟨hsame, heq⟩ := annColumnChange_eq_ok hs'
      refine ⟨hP.1.trans hsame, ?_⟩
      rw [heq]
      conv_lhs => rw [hP.2]
    have hfts : SameTable s t' ∧ t'.ann = s.ann := by
      refine Except.foldlM_invariant (fun t' ↦ SameTable s t' ∧ t'.ann = s.ann) h
        ⟨SameTable.refl s, rfl⟩ fun c _ s s' hP hs' ↦ ?_
      obtain ⟨hsame, heq⟩ := ftsColumnChange_sameTable hs'
      exact ⟨hP.1.trans hsame, heq.trans hP.2⟩
    exact ⟨s, hs, hann.1, hann.2, h, hfts⟩

/-! ## Changes of one row -/

omit [Unicode] in
theorem get?_storedValues (schema : TableSchema) (values : Properties) :
    (storedValues schema values).get? schema.primaryKey = none := by
  rw [storedValues]
  refine List.foldlRecOn (motive := fun stored : Properties ↦
    stored.get? schema.primaryKey = none) schema.columns _ ?_ fun stored hstored c _ ↦ ?_
  · exact OrdMap.get?_erase_self ..
  · split
    · split
      · rename_i hguard
        rw [OrdMap.get?_insert_of_ne _ _ (Ne.symm hguard.1), hstored]
      · exact hstored
    · exact hstored

/-- What a successful write did to the row with key `k`, and to what follows the rows. -/
structure RowChange (g : Ann.Geometry D) (schema : TableSchema) (pk : PropValue) (k : Bytes)
    (old new : Option Properties) (t t' : TableStore) : Prop where
  key : sortableKey pk = some k
  old_eq : t.rows.get? k = old
  rows : t'.rows = match new with
    | some values => t.rows.insert k values
    | none => t.rows.erase k
  /-- The old entry is out and the new one in, unless the indexed value did not change. -/
  index : ∀ c ∈ schema.indexedColumns,
    (∃ o n, old = some o ∧ new = some n ∧ sameIndexable schema c ⟨pk, o⟩ ⟨pk, n⟩ = true ∧
      t'.index c = t.index c) ∨
    ((∀ n, new = some n → Keyable schema c ⟨pk, n⟩) ∧
      t'.index c = addEntry (new.bind fun n ↦ entryOf schema c ⟨pk, n⟩)
        (removeEntry (old.bind fun o ↦ entryOf schema c ⟨pk, o⟩) (t.index c)))
  index_other : ∀ c, c ∉ schema.indexedColumns → t'.index c = t.index c
  valid : ∀ n, new = some n → validateRow schema pk n = .ok () ∧ n.get? schema.primaryKey = none
  unique : ∀ n, new = some n → ∃ changedFrom,
    (changedFrom = none ∨ ∃ o, old = some o ∧ changedFrom = some ⟨pk, o⟩) ∧
      t.checkUnique schema ⟨pk, n⟩ changedFrom = .ok ()
  search : onRowChange g { t with rows := t'.rows, index := t'.index } schema pk old new = .ok t'

/-- Only the rows, the indexes and the search indexes change. -/
theorem RowChange.frame {schema : TableSchema} {pk : PropValue} {k : Bytes}
    {old new : Option Properties} (h : RowChange g schema pk k old new t t') :
    t'.schema = t.schema ∧ t'.counter = t.counter ∧ t'.ftsColumns = t.ftsColumns ∧
      t'.annColumns = t.annColumns := by
  obtain ⟨s, -, hsame, -, -, hsame', -⟩ := onRowChange_eq_ok h.key h.search
  have h' := hsame.trans hsame'
  exact ⟨h'.schema, h'.counter, h'.ftsColumns, h'.annColumns⟩

theorem RowChange.get?_rows {schema : TableSchema} {pk : PropValue} {k : Bytes}
    {old new : Option Properties} (h : RowChange g schema pk k old new t t') (k' : Bytes) :
    t'.rows.get? k' = if k' = k then new else t.rows.get? k' := by
  rw [h.rows]
  by_cases hk : k' = k
  · subst hk
    cases new <;> simp
  · cases new with
    | none => simp [OrdMap.get?_erase_of_ne _ hk, hk]
    | some values => simp [OrdMap.get?_insert_of_ne _ _ hk, hk]

private theorem rows_eq_of_onRowChange {schema : TableSchema} {pk : PropValue} {k : Bytes}
    {old new : Option Properties} (hk : sortableKey pk = some k)
    (h : t.onRowChange g schema pk old new = .ok t') :
    t'.rows = t.rows ∧ t'.index = t.index := by
  obtain ⟨s, -, hsame, -, -, hsame', -⟩ := onRowChange_eq_ok hk h
  have h' := hsame.trans hsame'
  exact ⟨h'.rows, h'.index⟩

/-- **Insert and replace change one row.** -/
theorem writeRowIn_rowChange {schema : TableSchema} {pk : PropValue} {values : Properties}
    {onConflict : OnConflict} (h : t.writeRowIn g schema pk values onConflict = .ok t') :
    ∃ k old, RowChange g schema pk k old (some (storedValues schema values)) t t' := by
  simp only [writeRowIn, Except.bind_eq_ok, sortableEncode_eq_ok, Except.guardOr_eq_ok] at h
  obtain ⟨⟨⟩, hvalid, k, hk, ⟨⟩, -, ⟨⟩, hunique, h⟩ := h
  -- the old row's entries go first
  let gone : String → OrdMap Bytes Unit → OrdMap Bytes Unit := fun c ↦
    removeEntry ((t.rows.get? k).bind fun o ↦ entryOf schema c ⟨pk, o⟩)
  obtain ⟨t₁, ht₁, h⟩ : ∃ t₁, t₁ = { t with
      index := fun c ↦ if c ∈ schema.indexedColumns then gone c (t.index c) else t.index c } ∧
      ∃ t₂, schema.indexedColumns.foldlM
        (addIndexEntry schema ⟨pk, storedValues schema values⟩)
        { t₁ with rows := t₁.rows.insert k (storedValues schema values) } = .ok t₂ ∧
        t₂.onRowChange g schema pk (t.rows.get? k) (some (storedValues schema values)) = .ok t' := by
    cases hold : t.rows.get? k with
    | none =>
      rw [hold] at h
      simp only [pure_bind, Except.bind_eq_ok] at h
      refine ⟨t, ?_, h⟩
      simp [gone, hold, removeEntry]
    | some o =>
      rw [hold] at h
      simp only [Except.bind_eq_ok] at h
      obtain ⟨t₁, ht₁, h⟩ := h
      refine ⟨t₁, ?_, h⟩
      simp only [gone, hold, Option.bind_some]
      exact foldlM_removeIndexEntry ht₁
  obtain ⟨t₂, ht₂, h⟩ := h
  obtain ⟨henc, rfl⟩ := foldlM_addIndexEntry ht₂
  obtain ⟨hrows, hindex⟩ := rows_eq_of_onRowChange hk h
  subst ht₁
  refine ⟨k, t.rows.get? k, hk, rfl, hrows, fun c hc ↦ .inr ⟨?_, ?_⟩, fun c hc ↦ ?_, ?_, ?_, ?_⟩
  · rintro n hn
    rw [Option.some_inj] at hn
    exact hn ▸ henc c hc
  · rw [hindex]
    simp [hc, gone]
  · rw [hindex]
    simp [hc]
  · rintro n hn
    rw [Option.some_inj] at hn
    exact hn ▸ ⟨hvalid, get?_storedValues schema values⟩
  · rintro n hn
    rw [Option.some_inj] at hn
    exact ⟨none, .inl rfl, hn ▸ hunique⟩
  · rw [hrows, hindex]
    exact h

/-- **Delete changes one row**, or nothing. -/
theorem deleteRowIn_rowChange {schema : TableSchema} {pk : PropValue} {b : Bool}
    (h : t.deleteRowIn g schema pk = .ok (b, t')) :
    t' = t ∨ ∃ k o, RowChange g schema pk k (some o) none t t' := by
  rw [deleteRowIn] at h
  split at h
  · have h' := Except.ok.inj h
    exact .inl (congrArg Prod.snd h').symm
  · rename_i row hrow
    obtain ⟨k, hk, hget, hpk⟩ := getIn_eq_some.mp hrow
    rw [sortableEncode_eq_ok.mpr hk] at h
    simp only [Except.ok_bind, Except.bind_eq_ok] at h
    obtain ⟨t₁, ht₁, t₂, h, hpair⟩ := h
    obtain rfl : t₂ = t' := congrArg Prod.snd (Except.ok.inj hpair)
    have ht₁' := foldlM_removeIndexEntry ht₁
    obtain ⟨hrows, hindex⟩ := rows_eq_of_onRowChange hk h
    have hrow' : row = ⟨pk, row.values⟩ := by rw [← hpk]
    subst ht₁'
    refine .inr ⟨k, row.values, hk, hget, hrows, fun c hc ↦ .inr ⟨fun n hn ↦ by simp at hn, ?_⟩,
      fun c hc ↦ ?_, fun n hn ↦ by simp at hn, fun n hn ↦ by simp at hn, ?_⟩
    · rw [hindex, Option.bind_none, Option.bind_some, ← hrow']
      simp [hc, addEntry]
    · rw [hindex]
      simp [hc]
    · rw [hrows, hindex]
      exact h

/-- **Update changes one row**, or nothing. -/
theorem updateRowIn_rowChange {schema : TableSchema} {pk : PropValue}
    {mutate : Properties → Properties} {b : Bool}
    (h : t.updateRowIn g schema pk mutate = .ok (b, t')) :
    t' = t ∨ ∃ k o, RowChange g schema pk k (some o)
      (some ((mutate o).erase schema.primaryKey)) t t' := by
  rw [updateRowIn] at h
  split at h
  · have h' := Except.ok.inj h
    exact .inl (congrArg Prod.snd h').symm
  · rename_i row hrow
    obtain ⟨k, hk, hget, hpk⟩ := getIn_eq_some.mp hrow
    simp only [Except.bind_eq_ok, sortableEncode_eq_ok] at h
    obtain ⟨⟨⟩, hvalid, ⟨⟩, hunique, t₁, ht₁, k', hk', t₂, h, hpair⟩ := h
    obtain rfl : t₂ = t' := congrArg Prod.snd (Except.ok.inj hpair)
    obtain rfl : k = k' := by rw [hk, Option.some_inj] at hk'; exact hk'
    obtain ⟨henc, rfl⟩ := foldlM_updateIndexEntry ht₁
    obtain ⟨hrows, hindex⟩ := rows_eq_of_onRowChange hk h
    have hrow' : row = ⟨pk, row.values⟩ := by rw [← hpk]
    refine .inr ⟨k, row.values, hk, hget, hrows, fun c hc ↦ ?_, fun c hc ↦ ?_, ?_, ?_, ?_⟩
    · rw [hindex]
      simp only [hc, if_true, replaceEntry]
      by_cases hsame : sameIndexable schema c row
          ⟨pk, (mutate row.values).erase schema.primaryKey⟩ = true
      · refine .inl ⟨row.values, _, rfl, rfl, hrow' ▸ hsame, ?_⟩
        rw [if_pos hsame]
      · refine .inr ⟨fun n hn ↦ ?_, ?_⟩
        · rw [Option.some_inj] at hn
          exact hn ▸ (henc c hc).resolve_left hsame
        · rw [if_neg hsame, Option.bind_some, Option.bind_some, ← hrow']
    · rw [hindex]
      simp [hc]
    · rintro n hn
      rw [Option.some_inj] at hn
      exact hn ▸ ⟨hvalid, OrdMap.get?_erase_self ..⟩
    · rintro n hn
      rw [Option.some_inj] at hn
      exact ⟨some row, .inr ⟨row.values, rfl, by rw [← hrow']⟩, hn ▸ hunique⟩
    · rw [hrows, hindex]
      exact h

end Search

end TableStore
