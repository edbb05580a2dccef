import Bkndb.Relational.Statement
import Bkndb.Relational.VectorMirror
import Bkndb.Relational.WriteErrors

/-!
# Statements that fail change nothing

A statement on one row checks the row first and writes afterwards, but not everything that can fail
is among the checks: the key of an index entry is encoded when the entry is written, and a vector
index looks at the dimension of a vector when the row is already there. A statement that gets past
its checks only if neither can happen leaves the transaction as it was when it fails.

## Main results

* `WriteTaken.raises`, `UpdateTaken.raises` and `DeleteTaken.raises`: a row change that is taken
  fails, after its checks, by an overflow only.
* `atomic_of_takenBy`: so in every state of a transaction such a statement changes nothing when it
  returns an error.

A panic is not an error that a caller handles: the transaction is dropped by the unwinding, and its
state is gone.
-/

open Except Effect PropValue Ann

/-! ## What can still fail after the checks -/

namespace Ann.Hnsw

/-- The index takes the new value of the row with key `k`: it is unchanged, or not a vector, or a
vector of the dimension of the index, which is free while no other row is in it. -/
def Takes (h : Hnsw) (k : Bytes) (before after : Option PropValue) : Prop :=
  eqvOption before after = true ∨ ∀ v, after.bind vectorOf = some v → v = [] ∨
    v.length = h.annMeta.dim ∨ ∀ k', k' ≠ k → h.pks.get? k' = none

theorem checkDim_isOk {h : Hnsw} {len : ℕ} (hdim : h.annMeta.count = 0 ∨ len = h.annMeta.dim) :
    ∃ h', h.checkDim len = .ok h' := by
  rw [checkDim]
  split
  · exact ⟨_, rfl⟩
  · rename_i hcount
    rw [if_pos (hdim.resolve_left hcount)]
    exact ⟨h, rfl⟩

theorem Inv.count_eq_zero {h : Hnsw} (hi : h.Inv) (hnone : ∀ k, h.pks.get? k = none) :
    h.annMeta.count = 0 := by
  rw [hi.count, ← hi.size_pks]
  exact OrdMap.size_eq_zero.mpr hnone

variable {D : Type} [LinearOrder D] (g : Geometry D)

theorem Takes.raises {h : Hnsw} {k : Bytes} {value : Bytes → Option PropValue}
    {after : Option PropValue} (ht : h.Takes k (value k) after) (hf : h.Follows value)
    (hfits : Fits after) : Raises Panics (h.onChange g k (value k) after) := by
  rw [onChange]
  split
  · exact .ok _
  rename_i hne
  cases hv : after.bind vectorOf with
  | none => exact .ok _
  | some v =>
    refine ⟨fun e he ↦ ?_⟩
    by_cases hnil : v = []
    · subst hnil
      cases he
    -- the row itself is out of the index by now
    set h₁ := if (value k).isSome then h.remove g k else h with hh₁
    obtain ⟨hi₁, hpks₁, hdim₁⟩ : h₁.Inv ∧
        (∀ k', (h₁.pks.get? k').isSome → k' ≠ k ∧ (h.pks.get? k').isSome) ∧
        h₁.annMeta.dim = h.annMeta.dim := by
      rw [hh₁]
      split
      · obtain ⟨hi, -, hpks⟩ := remove_spec g hf.inv k
        exact ⟨hi, fun k' ↦ (hpks k').mp, dim_remove g h k⟩
      · rename_i hnone
        refine ⟨hf.inv, fun k' hk' ↦ ⟨?_, hk'⟩, rfl⟩
        rintro rfl
        obtain ⟨w, hw, -⟩ := (hf.mirrors k').mp hk'
        rw [Option.not_isSome_iff_eq_none.mp hnone] at hw
        cases hw
    have hdim : h₁.annMeta.count = 0 ∨ v.length = h₁.annMeta.dim := by
      rcases (ht.resolve_left hne v hv).resolve_left hnil with hlen | hnone
      · exact .inr (hlen.trans hdim₁.symm)
      · refine .inl (hi₁.count_eq_zero fun k' ↦ Option.not_isSome_iff_eq_none.mp fun hk' ↦ ?_)
        obtain ⟨hne', hsome⟩ := hpks₁ k' hk'
        rw [hnone k' hne'] at hsome
        cases hsome
    obtain ⟨h₂, hd⟩ := checkDim_isOk hdim
    exact add_panics g hi₁ (hfits v hv) hd he

end Ann.Hnsw

namespace TableStore

variable {t t' : TableStore} {schema : TableSchema}

/-! ## Index entries -/

theorem addIndexEntry_isOk {column : String} {row : Row} (h : Keyable schema column row) :
    ∃ t', t.addIndexEntry schema row column = .ok t' := by
  rw [addIndexEntry]
  split
  · exact ⟨t, rfl⟩
  · rename_i v hv
    obtain ⟨k, hk⟩ := h v hv
    rw [hk]
    exact ⟨_, rfl⟩

theorem removeIndexEntry_isOk {column : String} {row : Row} (h : Keyable schema column row) :
    ∃ t', t.removeIndexEntry schema row column = .ok t' := by
  rw [removeIndexEntry]
  split
  · exact ⟨t, rfl⟩
  · rename_i v hv
    obtain ⟨k, hk⟩ := h v hv
    rw [hk]
    exact ⟨_, rfl⟩

theorem updateIndexEntry_isOk {column : String} {old new : Row} (ho : Keyable schema column old)
    (hn : Keyable schema column new) :
    ∃ t', t.updateIndexEntry schema old new column = .ok t' := by
  rw [updateIndexEntry]
  split
  · exact ⟨t, rfl⟩
  · obtain ⟨s, hs⟩ := removeIndexEntry_isOk (t := t) ho
    rw [hs]
    exact addIndexEntry_isOk hn

theorem raises_of_isOk {P : BknError → Prop} {f : TableStore → String → Except BknError TableStore}
    {columns : List String} (h : ∀ s, ∀ c ∈ columns, ∃ s', f s c = .ok s') (t : TableStore) :
    Raises P (columns.foldlM f t) := by
  refine .foldlM_of_mem (fun s c hc ↦ ?_) t
  obtain ⟨s', hs'⟩ := h s c hc
  rw [hs']
  exact .ok s'

/-! ## The search indexes

The full-text indexes raise no error. A vector index does, for a vector of another dimension;
`Takes` rules this out by the vector and the state of the index. -/

variable {D : Type} [LinearOrder D] {g : Ann.Geometry D} {k : Bytes}
  {old new : Option Properties}

theorem ann_annColumnChange {table column : String}
    (h : annColumnChange g table k old new t column = .ok t') {c : String} (hc : c ≠ column) : t'.ann c = t.ann c := by
  rw [annColumnChange] at h
  split at h
  · obtain rfl := Except.ok.inj h
    rfl
  · simp only [Except.bind_eq_ok, Except.ofOption_eq_ok] at h
    obtain ⟨i, -, i', -, h⟩ := h
    obtain rfl := Except.ok.inj h
    exact Function.update_of_ne hc ..

/-- A row change that every vector index takes: each is there, and follows the rows of before. -/
structure AnnReady (t : TableStore) (k : Bytes) (old new : Option Properties) : Prop where
  nodup : t.annColumns.Nodup
  takes : ∀ c ∈ t.annColumns, ∃ h value, t.ann c = some h ∧ h.Follows value ∧
    value k = old.bind (·.get? c) ∧ h.Takes k (old.bind (·.get? c)) (new.bind (·.get? c))
  fits : ∀ c, Hnsw.Fits (new.bind (·.get? c))

theorem AnnReady.congr (h : t.AnnReady k old new) (hcolumns : t'.annColumns = t.annColumns)
    (hann : t'.ann = t.ann) : t'.AnnReady k old new :=
  ⟨hcolumns ▸ h.nodup, by rw [hcolumns, hann]; exact h.takes, h.fits⟩

theorem AnnReady.raises (h : t.AnnReady k old new) (table : String) :
    Raises Panics (t.annColumns.foldlM (annColumnChange g table k old new) t) := by
  refine ⟨fun e he ↦ ?_⟩
  obtain ⟨done, c, rest, s, hsplit, hdone, hstep⟩ := foldlM_eq_error he
  -- the columns before this one left its index alone
  have hnot : c ∉ done := fun hc ↦ by
    have hnodup := h.nodup
    rw [hsplit, List.nodup_append] at hnodup
    exact hnodup.2.2 c hc c (by simp) rfl
  have hs : s.ann c = t.ann c := foldlM_invariant (fun s ↦ s.ann c = t.ann c) hdone rfl
    fun c' hc' s s' hs hstep ↦
      (ann_annColumnChange hstep fun heq : c = c' ↦ hnot (heq ▸ hc')).trans hs
  obtain ⟨i, value, hi, hf, hvalue, htakes⟩ := h.takes c (by rw [hsplit]; simp)
  refine Raises.of_error (P := Panics) ?_ e hstep
  rw [annColumnChange]
  split
  · exact .ok _
  · rw [hs, hi]
    rw [← hvalue] at htakes ⊢
    exact (htakes.raises g hf (h.fits c)).bind fun _ ↦ .ok _

variable [Unicode]

/-- Such a change fails on an overflow only, also in a table whose rows have changed already. -/
theorem AnnReady.raises_onRowChange {pk : PropValue} (h : t.AnnReady k old new)
    (hk : sortableKey pk = some k) (schema : TableSchema) {s : TableStore}
    (hcolumns : s.annColumns = t.annColumns) (hann : s.ann = t.ann) :
    Raises Panics (s.onRowChange g schema pk old new) := by
  rw [onRowChange]
  split
  · exact .ok _
  rw [sortableEncode_eq_ok.mpr hk, Except.ok_bind]
  refine ((h.congr hcolumns hann).raises schema.name).bind fun _ ↦ ?_
  exact .foldlM (fun _ _ ↦ raises_ftsColumnChange _ _ _ _ _) _ _

/-! ## Row changes that are taken -/

omit [Unicode] in
/-- The change of the row `pk` from `old` to `new` passes the encoding of its index keys and the
dimensions of the vector indexes. -/
structure Taken (t : TableStore) (schema : TableSchema) (pk : PropValue) (k : Bytes)
    (old new : Option Properties) : Prop where
  oldKeyed : ∀ o, old = some o → ∀ c ∈ schema.indexedColumns, Keyable schema c ⟨pk, o⟩
  newKeyed : ∀ n, new = some n → ∀ c ∈ schema.indexedColumns, Keyable schema c ⟨pk, n⟩
  vectors : ∀ c ∈ t.annColumns, ∀ h, t.ann c = some h →
    h.Takes k (old.bind (·.get? c)) (new.bind (·.get? c))

omit [Unicode] in
theorem Taken.annReady {pk : PropValue} (h : t.Taken schema pk k old new) (hi : t.VectorInv)
    (hold : t.rows.get? k = old) (hfits : ∀ n, new = some n → AllOf FitsIndex n) :
    t.AnnReady k old new := by
  refine ⟨hi.nodup, fun c hc ↦ ?_, fun c v hv ↦ ?_⟩
  · obtain ⟨i, hindex, hf⟩ := hi.follows c hc
    exact ⟨i, _, hindex, hf, by rw [columnValue, hold], h.vectors c hc i hindex⟩
  · obtain ⟨w, hw, hvector⟩ := Option.bind_eq_some_iff.mp hv
    obtain ⟨n, hn, hget⟩ := Option.bind_eq_some_iff.mp hw
    refine (hfits n hn c w hget).vector v ?_
    rw [Option.bind_some, hvector]

/-- The checks of a row write let it pass only if its change is taken. -/
def WriteTaken (t : TableStore) (schema : TableSchema) (pk : PropValue) (values : Properties)
    (onConflict : OnConflict) : Prop :=
  validateRow schema pk (storedValues schema values) = .ok () →
  ∀ k, sortableKey pk = some k →
  (t.rows.get? k = none ∨ onConflict = .replace) →
  t.checkUnique schema ⟨pk, storedValues schema values⟩ none = .ok () →
  t.Taken schema pk k (t.rows.get? k) (some (storedValues schema values))

/-- The checks of a point update let it pass only if its change is taken. -/
def UpdateTaken (t : TableStore) (schema : TableSchema) (pk : PropValue)
    (mutate : Properties → Properties) : Prop :=
  ∀ row k, t.getIn pk = some row → sortableKey pk = some k →
  validateRow schema pk ((mutate row.values).erase schema.primaryKey) = .ok () →
  t.checkUnique schema ⟨pk, (mutate row.values).erase schema.primaryKey⟩ (some row) = .ok () →
  t.Taken schema pk k (some row.values) (some ((mutate row.values).erase schema.primaryKey))

/-- A point delete has no checks. -/
def DeleteTaken (t : TableStore) (schema : TableSchema) (pk : PropValue) : Prop :=
  ∀ row k, t.getIn pk = some row → sortableKey pk = some k →
    t.Taken schema pk k (some row.values) none

/-- Past its checks, a row write fails on an overflow only. -/
theorem WriteTaken.raises {pk : PropValue} {values : Properties} {onConflict : OnConflict}
    (h : t.WriteTaken schema pk values onConflict) (hi : t.VectorInv)
    (hfits : AllOf FitsIndex (storedValues schema values))
    (hvalid : validateRow schema pk (storedValues schema values) = .ok ())
    (hk : sortableKey pk = some k) (hfree : t.rows.get? k = none ∨ onConflict = .replace)
    (hunique : t.checkUnique schema ⟨pk, storedValues schema values⟩ none = .ok ()) :
    Raises Panics (t.writeRowIn g schema pk values onConflict) := by
  have htaken := h hvalid k hk hfree hunique
  have hready := htaken.annReady hi rfl fun n hn ↦ Option.some.inj hn ▸ hfits
  have hadd : ∀ s : TableStore, s.annColumns = t.annColumns → s.ann = t.ann →
      Raises Panics ((schema.indexedColumns.foldlM
        (addIndexEntry schema ⟨pk, storedValues schema values⟩) s) >>= fun s ↦
        s.onRowChange g schema pk (t.rows.get? k) (some (storedValues schema values))) := by
    intro s hcolumns hann
    refine (raises_of_isOk (fun s c hc ↦ addIndexEntry_isOk (htaken.newKeyed _ rfl c hc))
      s).bind_of_ok fun s' hs' ↦ ?_
    obtain ⟨-, rfl⟩ := foldlM_addIndexEntry hs'
    exact hready.raises_onRowChange hk schema hcolumns hann
  rw [writeRowIn]
  dsimp only
  rw [hvalid, Except.ok_bind, sortableEncode_eq_ok.mpr hk, Except.ok_bind,
    (guardOr_eq_ok (u := ())).mpr hfree, Except.ok_bind, hunique, Except.ok_bind]
  cases hold : t.rows.get? k with
  | none =>
    rw [hold] at hadd
    exact hadd _ rfl rfl
  | some o =>
    rw [hold] at hadd
    refine (raises_of_isOk (fun s c hc ↦ removeIndexEntry_isOk (htaken.oldKeyed o hold c hc))
      t).bind_of_ok fun s hs ↦ ?_
    have hs' := foldlM_removeIndexEntry hs
    subst hs'
    exact hadd _ rfl rfl

theorem UpdateTaken.raises {pk : PropValue} {mutate : Properties → Properties} {row : Row}
    (h : t.UpdateTaken schema pk mutate) (hi : t.VectorInv) (hrow : t.getIn pk = some row)
    (hfits : AllOf FitsIndex ((mutate row.values).erase schema.primaryKey))
    (hvalid : validateRow schema pk ((mutate row.values).erase schema.primaryKey) = .ok ())
    (hunique : t.checkUnique schema ⟨pk, (mutate row.values).erase schema.primaryKey⟩
      (some row) = .ok ()) : Raises Panics (t.updateRowIn g schema pk mutate) := by
  obtain ⟨k, hk, hget, hpk⟩ := getIn_eq_some.mp hrow
  have htaken := h row k hrow hk hvalid hunique
  have hready := htaken.annReady hi hget fun n hn ↦ Option.some.inj hn ▸ hfits
  rw [updateRowIn, hrow]
  dsimp only
  rw [hvalid, Except.ok_bind, hunique, Except.ok_bind]
  refine (raises_of_isOk (fun s c hc ↦ updateIndexEntry_isOk ?_
    (htaken.newKeyed _ rfl c hc)) t).bind_of_ok fun s hs ↦ ?_
  · have hkeyed := htaken.oldKeyed _ rfl c hc
    rwa [← hpk] at hkeyed
  obtain ⟨-, rfl⟩ := foldlM_updateIndexEntry hs
  rw [sortableEncode_eq_ok.mpr hk, Except.ok_bind]
  refine Raises.bind ?_ fun _ ↦ .ok _
  exact hready.raises_onRowChange hk schema rfl rfl

theorem DeleteTaken.raises {pk : PropValue} (h : t.DeleteTaken schema pk) (hi : t.VectorInv) :
    Raises Panics (t.deleteRowIn g schema pk) := by
  rw [deleteRowIn]
  split
  · exact .ok _
  · rename_i row hrow
    obtain ⟨k, hk, hget, hpk⟩ := getIn_eq_some.mp hrow
    have htaken := h row k hrow hk
    have hready := htaken.annReady hi hget fun n hn ↦ by cases hn
    rw [sortableEncode_eq_ok.mpr hk, Except.ok_bind]
    refine (raises_of_isOk (fun s c hc ↦ removeIndexEntry_isOk ?_) _).bind_of_ok fun s hs ↦ ?_
    · have hkeyed := htaken.oldKeyed _ rfl c hc
      rwa [← hpk] at hkeyed
    have hs' := foldlM_removeIndexEntry hs
    subst hs'
    refine Raises.bind ?_ fun _ ↦ .ok _
    exact hready.raises_onRowChange hk schema rfl rfl

/-- Everything but the key counter is as before. -/
def CounterOnly (t t' : TableStore) : Prop := t' = { t with counter := t'.counter }

omit [Unicode] in
theorem CounterOnly.vectorInv (h : CounterOnly t t') (hi : t.VectorInv) : t'.VectorInv :=
  hi.congr (by rw [h]) (by rw [h]) (by rw [h]) (by rw [h])

omit [Unicode] in
/-- The counter is not among what the checks and the indexes look at. -/
theorem CounterOnly.writeTaken {pk : PropValue} {values : Properties} {onConflict : OnConflict}
    (h : CounterOnly t t') (hw : t.WriteTaken schema pk values onConflict) :
    t'.WriteTaken schema pk values onConflict := by
  rw [h]
  intro hvalid k hk hfree hunique
  have htaken := hw hvalid k hk hfree hunique
  exact ⟨htaken.oldKeyed, htaken.newKeyed, htaken.vectors⟩

omit [Unicode] in
theorem reservePks_counterOnly {count : ℕ} {start : Int64}
    (h : t.reservePks count = .ok (start, t')) : CounterOnly t t' := by
  rw [reservePks] at h
  split at h
  · obtain ⟨-, rfl⟩ := Prod.mk.inj (Except.ok.inj h)
    rfl
  · obtain ⟨next, -, h⟩ := Except.bind_eq_ok.mp h
    obtain ⟨-, rfl⟩ := Prod.mk.inj (Except.ok.inj h)
    rfl

omit [Unicode] in
theorem start_reservePks {count : ℕ} {start : Int64} (hcount : count ≠ 0)
    (h : t.reservePks count = .ok (start, t')) :
    start = (UInt64.ofNat (t.counter.getD 1)).toInt64 := by
  rw [reservePks, if_neg hcount] at h
  obtain ⟨next, -, h⟩ := Except.bind_eq_ok.mp h
  exact (Prod.mk.inj (Except.ok.inj h)).1.symm

omit [Unicode] in
theorem noteExplicitPk_counterOnly (t : TableStore) (schema : TableSchema) (pk : PropValue) :
    CounterOnly t (t.noteExplicitPk schema pk) := by
  obtain ⟨n, hn⟩ := noteExplicitPk_step t schema pk
  rw [hn]
  rfl

end TableStore

/-! ## Statements -/

namespace Statement

open TableStore

variable [Unicode] {D : Type} [LinearOrder D] {g : Ann.Geometry D} {t t' : TableStore}
  {schema : TableSchema} {e : BknError}

/-- The key an insert uses. -/
def insertedPk (t : TableStore) (schema : TableSchema) (values : Properties) : Option PropValue :=
  if allocatesPk schema values then some (.int (UInt64.ofNat (t.counter.getD 1)).toInt64)
  else explicitPk schema values

/-- A statement gets past its checks only if its row change is taken. -/
def Taken (t : TableStore) (schema : TableSchema) : Statement → Prop
  | insert values onConflict => ∀ pk, insertedPk t schema values = some pk →
    t.WriteTaken schema pk values onConflict
  | insertWithPk pk values onConflict => t.WriteTaken schema pk values onConflict
  | update pk mutate => t.UpdateTaken schema pk mutate
  | delete pk => t.DeleteTaken schema pk

omit [Unicode] in
theorem eq_error_of_outcome {α : Type} {x : Effect TableStore BknError Unit}
    {m : Except BknError α} {f : α → TableStore}
    (hout : x.outcome t = m.map fun a ↦ ((), f a)) (h : x t = (.error e, t')) : m = .error e := by
  rw [outcome_of_error h] at hout
  cases m with
  | error e' =>
    cases hout
    rfl
  | ok a => cases hout

theorem writeRowIn_atomic {pk : PropValue} {values : Properties} {onConflict : OnConflict}
    (ht : t.WriteTaken schema pk values onConflict) (hi : t.VectorInv)
    (hfits : PropValue.AllOf FitsIndex (storedValues schema values))
    (h : writeRowIn g schema pk values onConflict t = (.error e, t')) (hne : ¬Panics e) :
    t' = t := by
  have hfail := eq_error_of_outcome (outcome_writeRowIn g schema pk values onConflict t) h
  rw [writeRowIn] at h
  dsimp only at h
  rw [ofExcept_bind_eq_error] at h
  rcases h with ⟨-, rfl⟩ | ⟨⟨⟩, hvalid, h⟩
  · rfl
  rw [ofExcept_bind_eq_error] at h
  rcases h with ⟨-, rfl⟩ | ⟨k, hk, h⟩
  · rfl
  rw [bind_apply_of_ok (get_apply t), ofExcept_bind_eq_error] at h
  rcases h with ⟨-, rfl⟩ | ⟨⟨⟩, hfree, h⟩
  · rfl
  rw [ofExcept_bind_eq_error] at h
  rcases h with ⟨-, rfl⟩ | ⟨⟨⟩, hunique, -⟩
  · rfl
  -- past the checks only a panic is left
  have hraises := ht.raises (g := g) hi hfits hvalid (sortableEncode_eq_ok.mp hk)
    (Except.guardOr_eq_ok.mp hfree) hunique
  exact absurd (hraises.of_error e hfail) hne

theorem updateRowIn_atomic {pk : PropValue} {mutate : Properties → Properties}
    (ht : t.UpdateTaken schema pk mutate) (hi : t.VectorInv)
    (hfits : ∀ row, t.getIn pk = some row →
      PropValue.AllOf FitsIndex ((mutate row.values).erase schema.primaryKey))
    (h : updateRowIn g schema pk mutate t = (.error e, t')) (hne : ¬Panics e) : t' = t := by
  have hfail := eq_error_of_outcome (outcome_updateRowIn g schema pk mutate t) h
  rw [updateRowIn, bind_apply_of_ok (get_apply t)] at h
  cases hrow : t.getIn pk with
  | none =>
    rw [hrow] at h
    cases h
  | some row =>
    rw [hrow] at h
    dsimp only at h
    rw [ofExcept_bind_eq_error] at h
    rcases h with ⟨-, rfl⟩ | ⟨⟨⟩, hvalid, h⟩
    · rfl
    rw [ofExcept_bind_eq_error] at h
    rcases h with ⟨-, rfl⟩ | ⟨⟨⟩, hunique, -⟩
    · rfl
    have hraises := ht.raises (g := g) hi hrow (hfits row hrow) hvalid hunique
    exact absurd (hraises.of_error e hfail) hne

theorem deleteRowIn_atomic {pk : PropValue} (ht : t.DeleteTaken schema pk) (hi : t.VectorInv)
    (h : deleteRowIn g schema pk t = (.error e, t')) (hne : ¬Panics e) : t' = t := by
  have hfail := eq_error_of_outcome (outcome_deleteRowIn g schema pk t) h
  exact absurd ((ht.raises hi).of_error e hfail) hne

theorem insertIn_atomic {values : Properties} {onConflict : OnConflict}
    (ht : (insert values onConflict).Taken t schema) (hi : t.VectorInv)
    (hfits : PropValue.AllOf FitsIndex (storedValues schema values))
    (h : insertIn g schema values onConflict t = (.error e, t')) (hne : ¬Panics e) :
    CounterOnly t t' := by
  rw [insertIn] at h
  rw [Taken] at ht
  split at h
  · rename_i ha
    rcases Effect.bind_eq_error.mp h with hreserve | ⟨next, s, hreserve, hrest⟩
    · rw [(lift_eq_error.mp hreserve).2]
      rfl
    have hnext := lift_eq_ok.mp hreserve
    have hcounter := reservePks_counterOnly hnext
    rw [ofExcept_bind_eq_error] at hrest
    rcases hrest with ⟨-, rfl⟩ | ⟨⟨⟩, -, hrest⟩
    · exact hcounter
    have hwrite := hcounter.writeTaken (ht (.int next) (by
      rw [insertedPk, if_pos ha, start_reservePks (by decide) hnext]))
    rw [writeRowIn_atomic hwrite (hcounter.vectorInv hi) hfits hrest hne]
    exact hcounter
  · rename_i ha
    rw [ofExcept_bind_eq_error] at h
    rcases h with ⟨-, rfl⟩ | ⟨pk, hpk, h⟩
    · rfl
    rw [bind_apply_of_ok (modify_apply _ t)] at h
    have hcounter := noteExplicitPk_counterOnly t schema pk
    have hwrite := hcounter.writeTaken
      (ht pk (by rw [insertedPk, if_neg ha, Except.ofOption_eq_ok.mp hpk]))
    rw [writeRowIn_atomic hwrite (hcounter.vectorInv hi) hfits h hne]
    exact hcounter

theorem insertWithPkIn_atomic {pk : PropValue} {values : Properties} {onConflict : OnConflict}
    (ht : t.WriteTaken schema pk values onConflict) (hi : t.VectorInv)
    (hfits : PropValue.AllOf FitsIndex (storedValues schema values))
    (h : insertWithPkIn g schema pk values onConflict t = (.error e, t')) (hne : ¬Panics e) :
    CounterOnly t t' := by
  rw [insertWithPkIn, ofExcept_bind_eq_error] at h
  rcases h with ⟨-, rfl⟩ | ⟨⟨⟩, -, h⟩
  · rfl
  rw [bind_apply_of_ok (modify_apply _ t)] at h
  have hcounter := noteExplicitPk_counterOnly t schema pk
  rw [writeRowIn_atomic (hcounter.writeTaken ht) (hcounter.vectorInv hi) hfits h hne]
  exact hcounter

/-! ## Transactions

In a transaction the error of a statement may be handled, and the next statement starts from what
is there. `OpenTx` describes the states that are reached in this way. -/

variable (g) in
/-- An error of the statement leaves everything but the key counter as it was. -/
def Atomic (t : TableStore) (ref : TableRef) (s : Statement) : Prop :=
  ∀ e t', s.run g ref t = (.error e, t') → ¬Panics e → CounterOnly t t'

/-- Whatever schema the handle resolves to, the statement gets past its checks only if its row
change is taken. -/
def TakenBy (t : TableStore) (ref : TableRef) (s : Statement) : Prop :=
  ∀ schema, t.resolveRef ref = .ok schema → s.Taken t schema

theorem TakenBy.atomic {ref : TableRef} {s : Statement} (h : s.TakenBy t ref) (hi : t.VectorInv)
    (hholds : t.HoldsOf FitsIndex) (hgives : (DbOp.rows ref s.toOp).Gives FitsIndex) :
    s.Atomic g t ref := by
  intro e t' hrun hne
  rw [run, ofExcept_bind_eq_error] at hrun
  rcases hrun with ⟨-, rfl⟩ | ⟨⟨⟩, -, hrun⟩
  · rfl
  rw [bind_apply_of_ok (get_apply t), ofExcept_bind_eq_error] at hrun
  rcases hrun with ⟨-, rfl⟩ | ⟨schema, hresolve, hrun⟩
  · rfl
  have ht := h schema hresolve
  have hd : schema.Defaults FitsIndex := by
    rcases resolveRef_eq_ok hresolve with hs | ⟨-, rfl⟩
    · exact hholds.defaults schema hs
    · exact hgives.1
  have hunchanged : t' = t → CounterOnly t t' := by
    rintro rfl
    rfl
  cases s with
  | insert values onConflict =>
    have hvalues := hgives.2 values List.mem_cons_self
    exact insertIn_atomic ht hi (allOf_storedValues hd hvalues) hrun hne
  | insertWithPk pk values onConflict =>
    have hvalues := (hgives.2 (pk, values) List.mem_cons_self).2
    exact insertWithPkIn_atomic ht hi (allOf_storedValues hd hvalues) hrun hne
  | update pk mutate =>
    refine hunchanged (updateRowIn_atomic ht hi (fun row hrow ↦ ?_) hrun hne)
    obtain ⟨k, -, hget, -⟩ := getIn_eq_some.mp hrow
    exact (hgives.2 _ (hholds.rows k row.values hget).values).filter _
  | delete pk => exact hunchanged (deleteRowIn_atomic ht hi hrun hne)

variable (g) in
/-- The states of a table in an open transaction, from a committed one: operations succeed, a
statement on several rows may have changed some of them before it fails, and the error of a
statement on one row is handled. -/
inductive OpenTx (t₀ : TableStore) : TableStore → Prop
  | start : OpenTx t₀ t₀
  | op {t t' : TableStore} {op : DbOp} : OpenTx t₀ t → op.Gives FitsIndex →
    t.applyOp g op = .ok t' → OpenTx t₀ t'
  | rows {t t' : TableStore} {schema : TableSchema} : OpenTx t₀ t →
    RowSteps g FitsIndex schema t t' → OpenTx t₀ t'
  | failed {t t' : TableStore} {ref : TableRef} {s : Statement} {e : BknError} : OpenTx t₀ t →
    (DbOp.rows ref s.toOp).Gives FitsIndex → s.TakenBy t ref → s.run g ref t = (.error e, t') →
    ¬Panics e → OpenTx t₀ t'

theorem OpenTx.inv {t₀ : TableStore} (h : OpenTx g t₀ t) (hi : t₀.VectorInv)
    (hholds : t₀.HoldsOf FitsIndex) : t.VectorInv ∧ t.HoldsOf FitsIndex := by
  induction h with
  | start => exact ⟨hi, hholds⟩
  | op _ hgives hop ih => exact ⟨ih.1.applyOp ih.2 hgives hop, ih.2.applyOp fitsIndex_int hgives hop⟩
  | rows _ hsteps ih =>
    exact ⟨(vectorInv_of_rowSteps ih.2 ih.1 hsteps).1, holdsOf_of_rowSteps ih.2 hsteps⟩
  | @failed t t' ref s e _ hgives ht hrun hne ih =>
    have hcounter := ht.atomic ih.1 ih.2 hgives e t' hrun hne
    exact ⟨hcounter.vectorInv ih.1, ih.2.congr (by rw [hcounter]) (by rw [hcounter])⟩

/-- **Statements on one row are atomic.** In every state of a transaction whose handled failures
were of such statements, a statement whose row change is taken if its checks let it through leaves
the table as it was when it fails. -/
theorem atomic_of_takenBy {r : RelRun} (hr : RelRun.Reachable g (·.Gives FitsIndex) r) {n : String}
    (ht : OpenTx g (r.store n) t) (ref : TableRef) (s : Statement)
    (hgives : (DbOp.rows ref s.toOp).Gives FitsIndex) (h : s.TakenBy t ref) : s.Atomic g t ref := by
  obtain ⟨hi, hholds⟩ := hr.vectorInv n
  obtain ⟨hi', hholds'⟩ := ht.inv hi hholds
  exact h.atomic hi' hholds' hgives

end Statement

/-! ## Two inserts -/

namespace RelRun

open Statement TableStore

/-- Remarks by number, with an index on the text. -/
def remarksSchema : TableSchema := .ofRelSchema
  { name := "remarks", columns := [("id", .int), ("x", .str)], primaryKey := "id",
    autoIncrementPk := false, indexedColumns := ["x"] }

/-- Register the table. -/
private def createRemarks : DbOp := .createTable remarksSchema

/-- Insert a remark without a text. -/
def emptyRemark : Statement := .insertWithPk (.int 1) ∅ .error

private theorem gives_createRemarks : createRemarks.Gives FitsIndex := by
  simp [createRemarks, DbOp.Gives, TableSchema.Defaults, remarksSchema, TableSchema.ofRelSchema]

private theorem gives_emptyRemark :
    (DbOp.rows ⟨remarksSchema, true⟩ emptyRemark.toOp).Gives FitsIndex := by
  refine ⟨gives_createRemarks, fun e he ↦ ?_⟩
  rw [List.mem_singleton.mp he]
  exact ⟨fitsIndex_int 1, fun c v hv ↦ by simp at hv⟩

/-- The remark is there, and cannot be inserted again. -/
private def remarkCheck (r : RelRun) : Bool :=
  ((r.store "remarks").rows.get? (Bytes.be 8 (flipSign 1).toNat)).isSome &&
    match (@run Unicode.ascii ℕ _ Ann.flat ⟨remarksSchema, true⟩ emptyRemark (r.store "remarks")).1 with
    | .error (.duplicateKey _ _) => true
    | _ => false

/-- A remark that is inserted a second time. -/
theorem atomic_second_remark : ∃ (r : RelRun) (t' : TableStore) (table : String) (key : Message),
    @run Unicode.ascii ℕ _ Ann.flat ⟨remarksSchema, true⟩ emptyRemark (r.store "remarks") =
      (.error (.duplicateKey table key), t') ∧ CounterOnly (r.store "remarks") t' := by
  obtain ⟨r, hr, hp⟩ := @exists_reachable Unicode.ascii ℕ _ Ann.flat (DbOp.Gives FitsIndex)
    [[createRemarks, .rows ⟨remarksSchema, true⟩ emptyRemark.toOp]] remarkCheck
    (by
      intro ops hops op hop
      obtain rfl := List.mem_singleton.mp hops
      simp only [List.mem_cons, List.not_mem_nil, or_false] at hop
      rcases hop with rfl | rfl
      · exact ⟨gives_createRemarks, by decide +kernel⟩
      · exact ⟨gives_emptyRemark, by decide +kernel⟩) (by decide +kernel)
  rw [remarkCheck, Bool.and_eq_true] at hp
  obtain ⟨hrow, herr⟩ := hp
  have hatomic := @atomic_of_takenBy Unicode.ascii ℕ _ Ann.flat _ r hr "remarks"
    (@OpenTx.start Unicode.ascii ℕ _ Ann.flat _) ⟨remarksSchema, true⟩ emptyRemark gives_emptyRemark
    (fun schema _ _ k hk hfree _ ↦ by
      obtain rfl := Option.some.inj hk
      rcases hfree with hnone | hreplace
      · rw [hnone] at hrow
        cases hrow
      · cases hreplace)
  rcases hrun : @run Unicode.ascii ℕ _ Ann.flat ⟨remarksSchema, true⟩ emptyRemark (r.store "remarks")
    with ⟨res, t'⟩
  rw [hrun] at herr
  dsimp only at herr
  split at herr
  · rename_i table key
    refine ⟨r, t', table, key, hrun, hatomic _ t' hrun ?_⟩
    rintro ⟨message, hmessage⟩
    cases hmessage
  · cases herr

/-- Insert a remark with a NUL in its text. -/
def nulRemark : Statement :=
  .insertWithPk (.int 1) ((∅ : Properties).insert "x" (.str "a\x00b")) .error

/-- The insert fails and leaves the row behind. -/
private def nulCheck (r : RelRun) : Bool :=
  (r.store "remarks").rows.isEmpty && (r.store "remarks").schema.isSome &&
    match @run Unicode.ascii ℕ _ Ann.flat ⟨remarksSchema, true⟩ nulRemark (r.store "remarks") with
    | (.error (.encoding _), t') => !t'.rows.isEmpty
    | _ => false

/-- The text has no index key, which is found out when the row has been written. -/
theorem not_atomic_nul : ∃ (r : RelRun) (schema : TableSchema),
    @Reachable Unicode.ascii ℕ _ Ann.flat (DbOp.Gives FitsIndex) r ∧
      (r.store "remarks").schema = some schema ∧
      (DbOp.rows ⟨remarksSchema, true⟩ nulRemark.toOp).Gives FitsIndex ∧
      ¬@Atomic Unicode.ascii ℕ _ Ann.flat (r.store "remarks") ⟨remarksSchema, true⟩ nulRemark := by
  obtain ⟨r, hr, hp⟩ := @exists_reachable Unicode.ascii ℕ _ Ann.flat (DbOp.Gives FitsIndex)
    [[createRemarks]] nulCheck
    (by
      intro ops hops op hop
      obtain rfl := List.mem_singleton.mp hops
      obtain rfl := List.mem_singleton.mp hop
      exact ⟨gives_createRemarks, by decide +kernel⟩) (by decide +kernel)
  simp only [nulCheck, Bool.and_eq_true, Option.isSome_iff_exists] at hp
  obtain ⟨⟨hempty, schema, hschema⟩, hrow⟩ := hp
  have hgives : (DbOp.rows ⟨remarksSchema, true⟩ nulRemark.toOp).Gives FitsIndex := by
    refine ⟨gives_createRemarks, fun e he ↦ ?_⟩
    rw [List.mem_singleton.mp he]
    refine ⟨fitsIndex_int 1, AllOf.insert (fun c v hv ↦ by simp at hv) "x" ⟨?_, ?_⟩⟩
    · intro v hv
      cases hv
    · intro k hk
      cases hk
  refine ⟨r, schema, hr, hschema, hgives, fun hatomic ↦ ?_⟩
  rcases hrun : @run Unicode.ascii ℕ _ Ann.flat ⟨remarksSchema, true⟩ nulRemark (r.store "remarks")
    with ⟨res, t'⟩
  rw [hrun] at hrow
  split at hrow
  · rename_i message t' heq
    cases heq
    have hcounter := hatomic _ _ hrun (by rintro ⟨message, hmessage⟩; cases hmessage)
    rw [hcounter, hempty] at hrow
    cases hrow
  · cases hrow

end RelRun
