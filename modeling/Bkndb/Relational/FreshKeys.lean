import Bkndb.Relational.PkCounter
import Bkndb.Relational.StoreInvariant
import Bkndb.Relational.WriteErrors

/-!
# Fresh primary keys

An insert into an auto-increment table allocates a key for each row without one. The keys of a batch
are one block, reserved from the counter before the first row is written, while the keys that rows
name themselves move the counter as they are met. The counter therefore stays ahead of every key in
the table, but a key named in the batch can lie in the block that the same batch has reserved.

## Main results

* `BatchInv.run`: what holds after a part of a batch.
* `freshPks_iff`: the keys of a batch are fresh exactly when the reserved block is clear of the
  keys that its rows name.

The keys that the rows of a batch get are told before the loop runs (`batchPk`): a row names its
key, or takes the next one of the block. The loop is then compared with this.
-/

namespace TableStore

variable {t t' : TableStore} {schema : TableSchema} [Unicode] {D : Type} [LinearOrder D]
  {g : Ann.Geometry D}

/-! ## The keys of a batch -/

omit [Unicode] in
private theorem prefix_snoc {α : Type} {l done : List α} {a : α} (h : done ++ [a] <+: l) :
    l[done.length]? = some a ∧ l.take done.length = done := by
  obtain ⟨rest, rfl⟩ := h
  simp

omit [Unicode] in
private theorem exists_countP_take {α : Type} {p : α → Bool} {l : List α} {n : ℕ}
    (h : n < l.countP p) : ∃ j a, l[j]? = some a ∧ p a = true ∧ (l.take j).countP p = n := by
  induction l generalizing n with
  | nil => simp at h
  | cons b l ih =>
    have hcons := List.countP_cons (p := p) (a := b) (l := l)
    by_cases hb : p b = true
    · cases n with
      | zero => exact ⟨0, b, rfl, hb, rfl⟩
      | succ n =>
        rw [if_pos hb] at hcons
        obtain ⟨j, a, hj, ha, hn⟩ := ih (n := n) (by omega)
        refine ⟨j + 1, a, hj, ha, ?_⟩
        rw [List.take_succ_cons, List.countP_cons, hn, if_pos hb]
    · rw [if_neg hb] at hcons
      obtain ⟨j, a, hj, ha, hn⟩ := ih (n := n) (by omega)
      refine ⟨j + 1, a, hj, ha, ?_⟩
      rw [List.take_succ_cons, List.countP_cons, hn, if_neg hb, Nat.add_zero]

omit [Unicode] in
private theorem countP_take_lt {α : Type} {p : α → Bool} {l : List α} {i j : ℕ} {a : α}
    (hi : l[i]? = some a) (ha : p a = true) (hij : i < j) :
    (l.take i).countP p < (l.take j).countP p := by
  obtain ⟨hlt, rfl⟩ := List.getElem?_eq_some_iff.mp hi
  have hsub : (l.take (i + 1)).Sublist (l.take j) :=
    (List.take_prefix_take_left hij).sublist
  have hle := hsub.countP_le (p := p)
  rw [List.take_succ_eq_append_getElem hlt, List.countP_append, List.countP_singleton,
    if_pos ha] at hle
  omega

omit [Unicode] in
private theorem countP_take_lt_countP {α : Type} {p : α → Bool} {l : List α} {i : ℕ} {a : α}
    (hi : l[i]? = some a) (ha : p a = true) : (l.take i).countP p < l.countP p := by
  have hlt := countP_take_lt hi ha (List.getElem?_eq_some_iff.mp hi).1
  rwa [List.take_length] at hlt

/-- The key of a row of a batch: the one it names, or else its share of the block that is reserved
for the batch. A share past the last `i64` is never handed out. -/
def batchPk (t : TableStore) (schema : TableSchema) (items : List Properties) (j : ℕ) :
    Option PropValue := do
  let values ← items[j]?
  if allocatesPk schema values then
    let (start, _) ← (t.reservePks (items.countP (allocatesPk schema))).toOption
    let pk := start.toInt + (items.take j).countP (allocatesPk schema)
    if pk < Int64.maxValue.toInt then some (.int (.ofInt pk)) else none
  else explicitPk schema values

variable {items : List Properties} {onConflict : OnConflict} {start : Int64}

omit [Unicode] in
theorem batchPk_of_explicit {j : ℕ} {values : Properties} (hj : items[j]? = some values)
    (ha : allocatesPk schema values = false) :
    t.batchPk schema items j = explicitPk schema values := by
  rw [batchPk, hj]
  change (if allocatesPk schema values then _ else _) = _
  rw [ha]
  rfl

omit [Unicode] in
theorem batchPk_of_alloc {j : ℕ} {values : Properties} (hj : items[j]? = some values)
    (ha : allocatesPk schema values = true)
    (hr : t.reservePks (items.countP (allocatesPk schema)) = .ok (start, t')) :
    t.batchPk schema items j =
      if start.toInt + (items.take j).countP (allocatesPk schema) < Int64.maxValue.toInt then
        some (.int (.ofInt (start.toInt + (items.take j).countP (allocatesPk schema)))) else none := by
  rw [batchPk, hj]
  change (if allocatesPk schema values then _ else _) = _
  rw [ha, hr]
  rfl

/-- The key of one row, the state it is written to, and the next reserved key after it. -/
def StepPk (schema : TableSchema) (next : Int64) (s : TableStore) (values : Properties)
    (pk : PropValue) (s₁ : TableStore) (next' : Int64) : Prop :=
  (allocatesPk schema values = true ∧ next ≠ Int64.maxValue ∧ pk = .int next ∧ s₁ = s ∧
    next' = next + 1) ∨
  (allocatesPk schema values = false ∧ explicitPk schema values = some pk ∧
    s₁ = s.noteExplicitPk schema pk ∧ next' = next)

variable {next next' : Int64} {pks pks' : List PropValue} {s s' : TableStore}

theorem insertStep_eq_ok {values : Properties}
    (h : insertStep g schema onConflict (next, pks, s) values = .ok (next', pks', s')) :
    ∃ pk s₁, StepPk schema next s values pk s₁ next' ∧
      s₁.writeRowIn g schema pk values onConflict = .ok s' ∧ pks' = pks ++ [pk] := by
  simp only [insertStep] at h
  split at h
  · rename_i ha
    simp only [Except.bind_eq_ok, Except.guardOr_eq_ok] at h
    obtain ⟨-, hnext, s₁, hwrite, h⟩ := h
    simp only [pure, Except.pure, Except.ok.injEq, Prod.mk.injEq] at h
    obtain ⟨rfl, rfl, rfl⟩ := h
    exact ⟨.int next, s, .inl ⟨ha, hnext, rfl, rfl, rfl⟩, hwrite, rfl⟩
  · rename_i ha
    simp only [Except.bind_eq_ok, Except.ofOption_eq_ok] at h
    obtain ⟨pk, hpk, s₁, hwrite, h⟩ := h
    simp only [pure, Except.pure, Except.ok.injEq, Prod.mk.injEq] at h
    obtain ⟨rfl, rfl, rfl⟩ := h
    exact ⟨pk, _, .inr ⟨Bool.eq_false_iff.mpr ha, hpk, rfl, rfl⟩, hwrite, rfl⟩

theorem insertStep_duplicateKey {values : Properties} {table : String} {key : Message}
    (h : insertStep g schema onConflict (next, pks, s) values =
      .error (.duplicateKey table key)) :
    ∃ pk s₁ next', StepPk schema next s values pk s₁ next' ∧
      s₁.writeRowIn g schema pk values onConflict = .error (.duplicateKey table key) := by
  simp only [insertStep] at h
  split at h
  · rename_i ha
    rw [Except.bind_eq_error] at h
    rcases h with h | ⟨⟨⟩, hnext, h⟩
    · rw [Except.guardOr] at h
      split at h <;> cases h
    rw [Except.bind_eq_error] at h
    rcases h with h | ⟨s₁, -, h⟩
    · exact ⟨_, _, _, .inl ⟨ha, Except.guardOr_eq_ok.mp hnext, rfl, rfl, rfl⟩, h⟩
    · cases h
  · rename_i ha
    rw [Except.bind_eq_error] at h
    rcases h with h | ⟨pk, hpk, h⟩
    · cases hpk : explicitPk schema values <;> rw [hpk] at h <;> cases h
    rw [Except.bind_eq_error] at h
    rcases h with h | ⟨s₁, -, h⟩
    · exact ⟨pk, _, _, .inr ⟨Bool.eq_false_iff.mpr ha, Except.ofOption_eq_ok.mp hpk, rfl, rfl⟩, h⟩
    · cases h

/-! ## The loop over a batch -/

/-- What holds after some rows of a batch. -/
structure BatchInv (t : TableStore) (schema : TableSchema) (items : List Properties)
    (start : Int64) (done : List Properties) (st : Int64 × List PropValue × TableStore) :
    Prop where
  next : st.1.toInt = start.toInt + done.countP (allocatesPk schema)
  length : st.2.1.length = done.length
  pks : ∀ j < done.length, st.2.1[j]? = t.batchPk schema items j
  counter : st.2.2.CounterOk schema
  /-- The counter stays past the reserved block. -/
  room : items.countP (allocatesPk schema) ≠ 0 →
    t.nextPk + items.countP (allocatesPk schema) ≤ st.2.2.nextPk
  rows : ∀ row, st.2.2.HasRow schema row → t.HasRow schema row ∨ row.pk ∈ st.2.1
  /-- A row is there until a later one takes its key. -/
  kept : ∀ (j : ℕ) values pk, items[j]? = some values → st.2.1[j]? = some pk →
    st.2.2.HasRow schema ⟨pk, storedValues schema values⟩ ∨ ∃ j' : ℕ, j < j' ∧ st.2.1[j']? = some pk

variable {done : List Properties} {values : Properties} {pk : PropValue} {s₁ : TableStore} {i : ℕ}

omit [Unicode] in
theorem StepPk.eq_batchPk (h : StepPk schema next s values pk s₁ next')
    (hr : t.reservePks (items.countP (allocatesPk schema)) = .ok (start, t'))
    (hnext : next.toInt = start.toInt + done.countP (allocatesPk schema))
    (hpre : done ++ [values] <+: items) :
    t.batchPk schema items done.length = some pk ∧
      next'.toInt = start.toInt + (done ++ [values]).countP (allocatesPk schema) := by
  obtain ⟨hj, htake⟩ := prefix_snoc hpre
  rw [List.countP_append, List.countP_singleton]
  rcases h with ⟨ha, hmax, rfl, -, rfl⟩ | ⟨ha, hpk, -, rfl⟩
  · have hlt : next.toInt < Int64.maxValue.toInt := by
      have hle := next.toInt_lt
      have hne : next.toInt ≠ Int64.maxValue.toInt := fun h ↦ hmax (Int64.toInt_inj.mp h)
      rw [Int64.toInt_maxValue] at hne ⊢
      omega
    rw [batchPk_of_alloc hj ha hr, htake, ← hnext, if_pos hlt, Int64.ofInt_toInt, if_pos ha]
    refine ⟨rfl, ?_⟩
    rw [Int64.toInt_maxValue] at hlt
    have hlow := next.le_toInt
    rw [Int64.toInt_add, Int64.toInt_one, Int.bmod_eq_of_le (by omega) (by omega)]
    push_cast
    omega
  · rw [batchPk_of_explicit hj ha, hpk, ha]
    refine ⟨rfl, ?_⟩
    simpa using hnext

omit [Unicode] in
/-- The state that a row is written to is the state of before with its counter past the row's key. -/
theorem StepPk.counterOk (h : StepPk schema next s values pk s₁ next')
    (hauto : schema.autoIncrementPk = true)
    (hr : t.reservePks (items.countP (allocatesPk schema)) = .ok (start, t'))
    (hinv : BatchInv t schema items start done (next, pks, s))
    (hpre : done ++ [values] <+: items) :
    s₁.CounterOk schema ∧ (∀ i, pk = .int i → 0 < i.toInt → i.toInt < s₁.nextPk) ∧
      s.nextPk ≤ s₁.nextPk ∧ s₁.rows = s.rows := by
  rcases h with ⟨ha, -, rfl, rfl, -⟩ | ⟨-, -, rfl, -⟩
  · refine ⟨hinv.counter, fun i hi hpos ↦ ?_, le_refl _, rfl⟩
    obtain ⟨hj, htake⟩ := prefix_snoc hpre
    have hlt := countP_take_lt_countP hj ha
    rw [htake] at hlt
    obtain ⟨hfit, hstart, -⟩ := reservePks_eq_ok (by omega) hr
    have hroom := hinv.room (by omega)
    have hnext := hinv.next
    cases hi
    rw [hstart, signed] at hnext
    dsimp only at hnext hroom ⊢
    split at hnext <;> omega
  · obtain ⟨hrows, hle, -, hpast⟩ := noteExplicitPk_spec s schema pk
    exact ⟨hinv.counter.noteExplicitPk pk, hpast hauto, hle, hrows⟩

omit [Unicode] in
theorem batchInv_reserve (hc : t.CounterOk schema)
    (hr : t.reservePks (items.countP (allocatesPk schema)) = .ok (start, t')) :
    BatchInv t schema items start [] (start, [], t') := by
  refine ⟨by simp, rfl, by simp, ?_, fun hk ↦ ?_, fun row hrow ↦ .inl ?_, by simp⟩
  · by_cases hk : items.countP (allocatesPk schema) = 0
    · rw [reservePks, if_pos hk] at hr
      obtain ⟨-, rfl⟩ := Prod.mk.inj (Except.ok.inj hr)
      exact hc
    · obtain ⟨hfit, -, rfl⟩ := reservePks_eq_ok hk hr
      exact hc.of_rows (Nat.le_add_right _ _) hfit fun row hrow _ _ _ ↦ .inr ⟨row, hrow, rfl⟩
  · obtain ⟨-, -, rfl⟩ := reservePks_eq_ok hk hr
    exact le_refl _
  · by_cases hk : items.countP (allocatesPk schema) = 0
    · rw [reservePks, if_pos hk] at hr
      obtain ⟨-, rfl⟩ := Prod.mk.inj (Except.ok.inj hr)
      exact hrow
    · obtain ⟨-, -, rfl⟩ := reservePks_eq_ok hk hr
      exact hrow

/-- **A row of a batch keeps the invariant of the loop.** -/
theorem BatchInv.step (hauto : schema.autoIncrementPk = true)
    (hr : t.reservePks (items.countP (allocatesPk schema)) = .ok (start, t'))
    (hinv : BatchInv t schema items start done (next, pks, s))
    (hpre : done ++ [values] <+: items)
    (h : insertStep g schema onConflict (next, pks, s) values = .ok (next', pks', s')) :
    BatchInv t schema items start (done ++ [values]) (next', pks', s') := by
  obtain ⟨pk, s₁, hstep, hwrite, rfl⟩ := insertStep_eq_ok h
  obtain ⟨hpk, hnext⟩ := hstep.eq_batchPk hr hinv.next hpre
  obtain ⟨hc, hpast, hle, hrows⟩ := hstep.counterOk hauto hr hinv hpre
  have hrow₁ : ∀ row, s₁.HasRow schema row ↔ s.HasRow schema row := fun row ↦ by
    rw [HasRow, HasRow, hrows]
  have hlen : pks.length = done.length := hinv.length
  have hlast : (pks ++ [pk])[done.length]? = some pk := by simp [← hlen]
  have hbefore : ∀ j < done.length, (pks ++ [pk])[j]? = pks[j]? := fun j hj ↦
    List.getElem?_append_left (hlen ▸ hj)
  obtain ⟨hitem, -⟩ := prefix_snoc hpre
  refine ⟨hnext, by simp [hlen], fun j hj ↦ ?_, hc.writeRowIn hpast hwrite, fun hk ↦ ?_,
    fun row hrow ↦ ?_, fun j values' pk' hj hpk' ↦ ?_⟩
  · rw [List.length_append, List.length_singleton] at hj
    rcases Nat.lt_succ_iff_lt_or_eq.mp hj with hlt | rfl
    · exact (hbefore j hlt).trans (hinv.pks j hlt)
    · exact hlast.trans hpk.symm
  · have hroom := hinv.room hk
    have heq := nextPk_writeRowIn hwrite
    dsimp only at hroom ⊢
    omega
  · rcases (hasRow_writeRowIn hwrite row).mp hrow with rfl | ⟨hrow, -⟩
    · exact .inr (by simp)
    · rcases hinv.rows row ((hrow₁ row).mp hrow) with hrow | hmem
      · exact .inl hrow
      · exact .inr (List.mem_append_left _ hmem)
  · by_cases hlt : j < done.length
    · dsimp only at hpk'
      rw [hbefore j hlt] at hpk'
      rcases hinv.kept j values' pk' hj hpk' with hrow | ⟨j', hjj', hj'⟩
      · -- the row is there, unless this one has its key
        by_cases heq : pk' = pk
        · exact .inr ⟨done.length, hlt, heq ▸ hlast⟩
        · exact .inl ((hasRow_writeRowIn hwrite _).mpr (.inr ⟨(hrow₁ _).mpr hrow, heq⟩))
      · have hlt' : j' < done.length := hlen ▸ (List.getElem?_eq_some_iff.mp hj').1
        exact .inr ⟨j', hjj', (hbefore j' hlt').trans hj'⟩
    · have hj' : j < done.length + 1 := by
        have := (List.getElem?_eq_some_iff.mp hpk').1
        rwa [List.length_append, hlen, List.length_singleton] at this
      obtain rfl : j = done.length := by omega
      obtain rfl : values' = values := Option.some.inj (hj.symm.trans hitem)
      obtain rfl : pk' = pk := Option.some.inj (hpk'.symm.trans hlast)
      exact .inl ((hasRow_writeRowIn hwrite _).mpr (.inl rfl))

/-- The invariant after a part of the batch. -/
theorem BatchInv.run (hauto : schema.autoIncrementPk = true) (hc : t.CounterOk schema)
    (hr : t.reservePks (items.countP (allocatesPk schema)) = .ok (start, t'))
    (hdone : done <+: items) {st : Int64 × List PropValue × TableStore}
    (h : done.foldlM (insertStep g schema onConflict) (start, [], t') = .ok st) :
    BatchInv t schema items start done st := by
  refine Except.foldlM_induction (BatchInv t schema items start) h (batchInv_reserve hc hr)
    fun before values st st' hpre hinv hstep ↦ ?_
  exact hinv.step hauto hr (hpre.trans hdone) hstep

theorem insertBulkIn_eq_ok (hauto : schema.autoIncrementPk = true) (hc : t.CounterOk schema)
    (h : t.insertBulkIn g schema items onConflict = .ok (pks, t')) :
    ∃ start next, BatchInv t schema items start items (next, pks, t') := by
  simp only [insertBulkIn, Except.bind_eq_ok] at h
  obtain ⟨⟨start, t₁⟩, hreserve, ⟨next, pks', t₂⟩, hloop, h⟩ := h
  obtain ⟨rfl, rfl⟩ := Prod.mk.inj (Except.ok.inj h)
  exact ⟨start, next, BatchInv.run hauto hc hreserve (List.prefix_refl _) hloop⟩

/-! ## Fresh keys

An allocated key is to differ from every key of the table and of the batch. The counter takes care
of the table, and the condition of the batch. -/

variable (g) in
/-- The states of a table that row operations reach from an empty one. -/
inductive RowRun (schema : TableSchema) : TableStore → Prop
  | empty {t : TableStore} : t.rows = ∅ → t.counter = none → RowRun schema t
  | step {t t' : TableStore} {op : RowOp} : RowRun schema t →
    t.applyRowOp g schema op = .ok t' → RowRun schema t'

/-- **The counter stays ahead of the keys**, whatever the batches hold. -/
theorem RowRun.counterOk (hauto : schema.autoIncrementPk = true) (h : RowRun g schema t) :
    t.CounterOk schema := by
  induction h with
  | empty hrows hcounter => exact counterOk_of_empty hrows hcounter
  | @step t t' op _ hop ih =>
    cases op with
    | insertBulk items onConflict =>
      obtain ⟨⟨pks, s⟩, hs, rfl⟩ := Except.map_eq_ok.mp hop
      obtain ⟨start, next, hinv⟩ := insertBulkIn_eq_ok hauto ih hs
      exact hinv.counter
    | insertWithPkBulk items onConflict => exact ih.insertWithPkBulkIn hauto hop
    | update pk mutate =>
      obtain ⟨⟨b, s⟩, hs, rfl⟩ := Except.map_eq_ok.mp hop
      exact ih.updateRowIn hs
    | updateWhere q sets =>
      obtain ⟨⟨n, s⟩, hs, rfl⟩ := Except.map_eq_ok.mp hop
      exact ih.updateIn hs
    | delete pk =>
      obtain ⟨⟨b, s⟩, hs, rfl⟩ := Except.map_eq_ok.mp hop
      exact ih.deleteRowIn hs
    | deleteWhere q =>
      obtain ⟨⟨n, s⟩, hs, rfl⟩ := Except.map_eq_ok.mp hop
      exact ih.deleteIn hs

/-- A key that the table and the other rows of a batch do not use. -/
structure FreshPk (t : TableStore) (schema : TableSchema) (items : List Properties) (i : ℕ)
    (pk : PropValue) : Prop where
  positive : ∃ p : Int64, pk = .int p ∧ 1 ≤ p.toInt
  unused : ∀ row, t.HasRow schema row → row.pk ≠ pk
  alone : ∀ j, j ≠ i → t.batchPk schema items j ≠ some pk

variable (g) in
/-- What a batch is promised about its primary keys. -/
structure FreshPks (t : TableStore) (schema : TableSchema) (items : List Properties)
    (onConflict : OnConflict) : Prop where
  allocated : ∀ i values pk, items[i]? = some values → allocatesPk schema values = true →
    t.batchPk schema items i = some pk → FreshPk t schema items i pk
  counter : ∀ pks t', t.insertBulkIn g schema items onConflict = .ok (pks, t') →
    t'.CounterAhead schema
  /-- Only a row that names its key takes the place of an earlier row of the batch. -/
  kept : ∀ pks t', t.insertBulkIn g schema items onConflict = .ok (pks, t') →
    ∀ i values pk, items[i]? = some values → pks[i]? = some pk →
      t'.HasRow schema ⟨pk, storedValues schema values⟩ ∨
        ∃ (j : ℕ) (later : Properties), i < j ∧ items[j]? = some later ∧
          explicitPk schema later = some pk
  /-- Named keys that are distinct and unused are never reported as taken. -/
  noDuplicate : onConflict = .error →
    (∀ i values pk, items[i]? = some values → explicitPk schema values = some pk →
      (∀ row, t.HasRow schema row → row.pk ≠ pk) ∧
        ∀ (j : ℕ) other, j ≠ i → items[j]? = some other → explicitPk schema other ≠ some pk) →
    ∀ table key, t.insertBulkIn g schema items onConflict ≠ .error (.duplicateKey table key)

/-- The block of keys reserved for a batch is empty, or cannot be reserved, or it consists of
positive keys and no row of the batch names one of them. -/
def BlockClear (t : TableStore) (schema : TableSchema) (items : List Properties) : Prop :=
  items.countP (allocatesPk schema) = 0 ∨
  2 ^ 64 ≤ t.nextPk + items.countP (allocatesPk schema) ∨
  (t.nextPk < 2 ^ 63 ∧ ∀ values ∈ items, ∀ e : Int64, explicitPk schema values = some (.int e) →
    t.nextPk ≤ e.toInt → e.toInt < t.nextPk + items.countP (allocatesPk schema) →
    e.toInt = Int64.maxValue.toInt)

omit [Unicode] in
theorem not_allocates_of_explicitPk (h : explicitPk schema values = some pk) :
    allocatesPk schema values = false := by
  rw [allocatesPk, h]
  simp

omit [Unicode] in
theorem exists_reservePks (hi : items[i]? = some values) (ha : allocatesPk schema values = true)
    (hpk : t.batchPk schema items i = some pk) :
    ∃ start t', t.reservePks (items.countP (allocatesPk schema)) = .ok (start, t') := by
  cases hr : t.reservePks (items.countP (allocatesPk schema)) with
  | ok st => exact ⟨st.1, st.2, rfl⟩
  | error e =>
    rw [batchPk, hi] at hpk
    change (if allocatesPk schema values then _ else _) = _ at hpk
    rw [ha, hr] at hpk
    cases hpk

omit [Unicode] in
/-- The keys that a batch in the clear is given. -/
theorem BlockClear.batchPk_alloc (h : t.BlockClear schema items)
    (hi : items[i]? = some values) (ha : allocatesPk schema values = true)
    (hpk : t.batchPk schema items i = some pk) :
    ∃ p : Int64, pk = .int p ∧ p.toInt < Int64.maxValue.toInt ∧
      p.toInt = t.nextPk + (items.take i).countP (allocatesPk schema) ∧
      ∀ values ∈ items, ∀ e : Int64, explicitPk schema values = some (.int e) →
        t.nextPk ≤ e.toInt → e.toInt < t.nextPk + items.countP (allocatesPk schema) →
        e.toInt = Int64.maxValue.toInt := by
  have hlt := countP_take_lt_countP hi ha
  obtain ⟨start, t₁, hr⟩ := exists_reservePks hi ha hpk
  obtain ⟨hfit, hstart, -⟩ := reservePks_eq_ok (by omega) hr
  obtain ⟨hpos, hnone⟩ := (h.resolve_left (by omega)).resolve_left (by omega)
  rw [batchPk_of_alloc hi ha hr, hstart, signed, if_pos hpos] at hpk
  split at hpk
  · rename_i hmax
    refine ⟨_, (Option.some.inj hpk).symm, ?_⟩
    rw [Int64.toInt_maxValue] at hmax
    rw [Int64.toInt_ofInt_of_le (by omega) (by omega), Int64.toInt_maxValue]
    exact ⟨hmax, rfl, hnone⟩
  · cases hpk

omit [Unicode] in
/-- In the clear, an allocated key is fresh. -/
theorem BlockClear.freshPk (hc : t.CounterOk schema) (h : t.BlockClear schema items)
    (hi : items[i]? = some values) (ha : allocatesPk schema values = true)
    (hpk : t.batchPk schema items i = some pk) : FreshPk t schema items i pk := by
  obtain ⟨p, rfl, hmax, hp, hnone⟩ := h.batchPk_alloc hi ha hpk
  have hpos := hc.pos
  have hshare := countP_take_lt_countP hi ha
  refine ⟨⟨p, rfl, by omega⟩, fun row hrow hrowpk ↦ ?_, fun j hji hj ↦ ?_⟩
  · have := hc.ahead row p hrow hrowpk (by omega)
    omega
  cases hitem : items[j]? with
  | none =>
    rw [batchPk, hitem] at hj
    cases hj
  | some other =>
    cases hb : allocatesPk schema other with
    | true =>
      -- two rows have different shares of the block
      obtain ⟨p', heq, -, hp', -⟩ := h.batchPk_alloc hitem hb hj
      cases heq
      rcases Nat.lt_or_gt_of_ne hji with hlt | hlt
      · have := countP_take_lt hitem hb hlt
        omega
      · have := countP_take_lt hi ha hlt
        omega
    | false =>
      rw [batchPk_of_explicit hitem hb] at hj
      have := hnone other (List.mem_of_getElem? hitem) p hj (by omega) (by omega)
      omega

omit [Unicode] in
theorem BatchInv.exists_item {st : Int64 × List PropValue × TableStore}
    (hinv : BatchInv t schema items start done st) (hdone : done <+: items)
    (hj : st.2.1[i]? = some pk) :
    i < done.length ∧ t.batchPk schema items i = some pk ∧ ∃ values, items[i]? = some values := by
  have hlt : i < done.length := hinv.length ▸ (List.getElem?_eq_some_iff.mp hj).1
  refine ⟨hlt, (hinv.pks i hlt).symm.trans hj, items.get ⟨i, hlt.trans_le hdone.length_le⟩, ?_⟩
  exact List.getElem?_eq_getElem _

theorem BlockClear.kept (hauto : schema.autoIncrementPk = true) (hc : t.CounterOk schema)
    (h : t.BlockClear schema items)
    (hok : t.insertBulkIn g schema items onConflict = .ok (pks, t'))
    (hi : items[i]? = some values) (hpk : pks[i]? = some pk) :
    t'.HasRow schema ⟨pk, storedValues schema values⟩ ∨
      ∃ (j : ℕ) (later : Properties), i < j ∧ items[j]? = some later ∧
        explicitPk schema later = some pk := by
  obtain ⟨start, next, hinv⟩ := insertBulkIn_eq_ok hauto hc hok
  refine (hinv.kept i values pk hi hpk).imp_right fun ⟨j, hij, hj⟩ ↦ ?_
  obtain ⟨-, hbatch, later, hlater⟩ := hinv.exists_item (List.prefix_refl _) hj
  obtain ⟨-, hbatch', -⟩ := hinv.exists_item (List.prefix_refl _) hpk
  refine ⟨j, later, hij, hlater, ?_⟩
  cases ha : allocatesPk schema later with
  | true => exact absurd hbatch' ((h.freshPk hc hlater ha hbatch).alone i hij.ne)
  | false => rw [← hbatch, batchPk_of_explicit hlater ha]

theorem BlockClear.noDuplicate (hauto : schema.autoIncrementPk = true) (hc : t.CounterOk schema)
    (h : t.BlockClear schema items)
    (hnamed : ∀ i values pk, items[i]? = some values → explicitPk schema values = some pk →
      (∀ row, t.HasRow schema row → row.pk ≠ pk) ∧
        ∀ (j : ℕ) other, j ≠ i → items[j]? = some other → explicitPk schema other ≠ some pk)
    (table : String) (key : Message) :
    t.insertBulkIn g schema items onConflict ≠ .error (.duplicateKey table key) := by
  intro herr
  rw [insertBulkIn, Except.bind_eq_error] at herr
  rcases herr with herr | ⟨⟨start, t₁⟩, hr, herr⟩
  · rw [reservePks] at herr
    split at herr
    · cases herr
    · refine (Except.Raises.of_error (P := NotDuplicate) ?_ _ herr).elim
      exact ((raises_checkedAdd _ _).mono fun _ ↦ notDuplicate_of_panics).bind fun _ ↦ .ok _
  rw [Except.bind_eq_error] at herr
  rcases herr with herr | ⟨st, -, herr⟩
  swap
  · cases herr
  -- the rows before the one that fails are written, and their keys are not its key
  obtain ⟨done, values, rest, ⟨next, pks, s⟩, hitems, hdone, hstep⟩ := Except.foldlM_eq_error herr
  have hpre : done ++ [values] <+: items := ⟨rest, by simp [hitems]⟩
  have hdone' : done <+: items := (List.prefix_append _ _).trans hpre
  have hinv := BatchInv.run hauto hc hr hdone' hdone
  obtain ⟨pk, s₁, next', hpk, hwrite⟩ := insertStep_duplicateKey hstep
  obtain ⟨hbatch, -⟩ := hpk.eq_batchPk hr hinv.next hpre
  obtain ⟨-, -, -, hrows⟩ := hpk.counterOk hauto hr hinv hpre
  obtain ⟨hitem, -⟩ := prefix_snoc hpre
  obtain ⟨row, hrow, hrowpk⟩ := writeRowIn_duplicateKey g hwrite
  have hrow' : s.HasRow schema row := by
    rw [HasRow, hrows] at hrow
    exact hrow
  have hused : (∃ row, t.HasRow schema row ∧ row.pk = pk) ∨ ∃ j, j < done.length ∧
      t.batchPk schema items j = some pk ∧ ∃ other, items[j]? = some other := by
    rcases hinv.rows row hrow' with hrow | hmem
    · exact .inl ⟨row, hrow, hrowpk⟩
    · obtain ⟨j, hj⟩ := List.mem_iff_getElem?.mp (hrowpk ▸ hmem)
      exact .inr ⟨j, hinv.exists_item hdone' hj⟩
  cases ha : allocatesPk schema values with
  | true =>
    have hfresh := h.freshPk hc hitem ha hbatch
    rcases hused with ⟨row, hrow, hrowpk⟩ | ⟨j, hj, hjpk, -⟩
    · exact hfresh.unused row hrow hrowpk
    · exact hfresh.alone j hj.ne hjpk
  | false =>
    have hexplicit := (batchPk_of_explicit hitem ha).symm.trans hbatch
    obtain ⟨hunused, hdistinct⟩ := hnamed _ _ _ hitem hexplicit
    rcases hused with ⟨row, hrow, hrowpk⟩ | ⟨j, hj, hjpk, other, hother⟩
    · exact hunused row hrow hrowpk
    cases hb : allocatesPk schema other with
    | true => exact (h.freshPk hc hother hb hjpk).alone _ hj.ne' hbatch
    | false =>
      exact hdistinct j other hj.ne hother ((batchPk_of_explicit hother hb).symm.trans hjpk)

omit [Unicode] in
theorem exists_batchPk {n : ℕ} (hn : n < items.countP (allocatesPk schema))
    (hr : t.reservePks (items.countP (allocatesPk schema)) = .ok (start, t'))
    (hmax : start.toInt + n < Int64.maxValue.toInt) : ∃ j values, items[j]? = some values ∧
      allocatesPk schema values = true ∧
      t.batchPk schema items j = some (.int (.ofInt (start.toInt + n))) := by
  obtain ⟨j, values, hj, ha, hcount⟩ := exists_countP_take hn
  exact ⟨j, values, hj, ha, by rw [batchPk_of_alloc hj ha hr, hcount, if_pos hmax]⟩

/-- Without the condition, an allocated key is not fresh. -/
theorem FreshPks.blockClear (h : FreshPks g t schema items onConflict) :
    t.BlockClear schema items := by
  by_cases hk : items.countP (allocatesPk schema) = 0
  · exact .inl hk
  by_cases hfit : 2 ^ 64 ≤ t.nextPk + items.countP (allocatesPk schema)
  · exact .inr (.inl hfit)
  refine .inr (.inr ?_)
  obtain ⟨start, t₁, hr⟩ :
      ∃ start t₁, t.reservePks (items.countP (allocatesPk schema)) = .ok (start, t₁) := by
    have hadd : checkedAdd (t.counter.getD 1) (items.countP (allocatesPk schema)) =
        .ok (t.nextPk + items.countP (allocatesPk schema)) :=
      checkedAdd_eq_ok.mpr ⟨by rw [nextPk] at hfit; omega, rfl⟩
    rw [reservePks, if_neg hk]
    dsimp only
    rw [hadd]
    exact ⟨_, _, rfl⟩
  obtain ⟨-, hstart, -⟩ := reservePks_eq_ok hk hr
  have hsmall : t.nextPk < 2 ^ 63 := by
    by_contra hbig
    -- the first reserved key is negative
    rw [signed, if_neg hbig] at hstart
    obtain ⟨j, values, hj, ha, hpk⟩ := exists_batchPk (n := 0) (by omega) hr
      (by rw [Int64.toInt_maxValue]; omega)
    obtain ⟨⟨p, hp, hpos⟩, -, -⟩ := h.allocated j values _ hj ha hpk
    cases hp
    rw [Int64.toInt_ofInt_of_le (by omega) (by omega)] at hpos
    omega
  refine ⟨hsmall, fun other hother e he hlow hhigh ↦ ?_⟩
  by_contra hne
  rw [signed, if_pos hsmall] at hstart
  have hmax : e.toInt < Int64.maxValue.toInt := by
    have := e.toInt_lt
    rw [Int64.toInt_maxValue] at hne ⊢
    omega
  obtain ⟨n, hn⟩ : ∃ n : ℕ, e.toInt = t.nextPk + n := ⟨(e.toInt - t.nextPk).toNat, by omega⟩
  have heq : start.toInt + n = e.toInt := by omega
  obtain ⟨j, values, hj, ha, hpk⟩ := exists_batchPk (n := n) (by omega) hr (heq ▸ hmax)
  rw [heq, Int64.ofInt_toInt] at hpk
  obtain ⟨j', hj'⟩ := List.mem_iff_getElem?.mp hother
  have hb := not_allocates_of_explicitPk he
  refine (h.allocated j values _ hj ha hpk).alone j' ?_ ((batchPk_of_explicit hj' hb).trans he)
  rintro rfl
  rw [Option.some.inj (hj.symm.trans hj'), hb] at ha
  cases ha

/-- **When the keys of a batch are fresh.** In every state of an auto-increment table that row
operations reach, the promises of a batch about its primary keys hold exactly when no row of it
names a key of the block reserved for it, and the block does not start past the last `i64`. -/
theorem freshPks_iff (hr : RowRun g schema t) (hauto : schema.autoIncrementPk = true)
    (items : List Properties) (onConflict : OnConflict) :
    FreshPks g t schema items onConflict ↔ t.BlockClear schema items := by
  have hc := hr.counterOk hauto
  refine ⟨FreshPks.blockClear, fun h ↦ ⟨fun i values pk hi ha hpk ↦ h.freshPk hc hi ha hpk,
    fun pks t' hok ↦ ?_, fun pks t' hok i values pk hi hpk ↦ h.kept hauto hc hok hi hpk,
    fun _ hnamed ↦ h.noDuplicate hauto hc hnamed⟩⟩
  obtain ⟨start, next, hinv⟩ := insertBulkIn_eq_ok hauto hc hok
  exact hinv.counter.ahead

end TableStore

/-! ## Two batches -/

namespace TableStore

/-- Points whose numbers are allocated. -/
def numberedSchema : TableSchema := { pointsSchema [] with autoIncrementPk := true }

/-- A point without a number. -/
def unnumbered : Properties := (∅ : Properties).insert "x" (.int 2)

private theorem exists_numbered : ∃ t : TableStore,
    @RowRun Unicode.ascii ℕ _ Ann.flat numberedSchema t ∧ t.nextPk = 2 := by
  have hcheck : (@applyRowOp Unicode.ascii ℕ _ Ann.flat {} numberedSchema
      (.insertBulk [RelRun.point] .error)).toOption.any (fun t ↦ decide (t.nextPk = 2)) = true := by
    decide +kernel
  cases hop : @applyRowOp Unicode.ascii ℕ _ Ann.flat {} numberedSchema
      (.insertBulk [RelRun.point] .error) with
  | error e =>
    rw [hop] at hcheck
    cases hcheck
  | ok t =>
    rw [hop] at hcheck
    refine ⟨t, ?_, by simpa [Except.toOption] using hcheck⟩
    exact @RowRun.step Unicode.ascii ℕ _ Ann.flat _ _ _ _
      (@RowRun.empty Unicode.ascii ℕ _ Ann.flat _ {} rfl rfl) hop

/-- After point 1, a batch of point 1 again and a point without a number. -/
theorem freshPks_numbered : ∃ t : TableStore, t.nextPk = 2 ∧
    @FreshPks Unicode.ascii ℕ _ Ann.flat t numberedSchema [RelRun.point, unnumbered] .replace := by
  obtain ⟨t, hrun, hnext⟩ := exists_numbered
  refine ⟨t, hnext, (@freshPks_iff t numberedSchema Unicode.ascii ℕ _ Ann.flat hrun rfl _ _).mpr
    (.inr (.inr ⟨by omega, fun values hvalues e he hlow _ ↦ ?_⟩))⟩
  rw [hnext] at hlow
  have hpk : explicitPk numberedSchema RelRun.point = some (.int 1) := rfl
  have hnone : explicitPk numberedSchema unnumbered = none := rfl
  simp only [List.mem_cons, List.not_mem_nil, or_false] at hvalues
  rcases hvalues with rfl | rfl
  · rw [hpk] at he
    cases he
    exact absurd hlow (by decide)
  · rw [hnone] at he
    cases he

/-- In an empty table the same batch gives both points the number 1. -/
theorem not_freshPks_numbered :
    @RowRun Unicode.ascii ℕ _ Ann.flat numberedSchema {} ∧
    (@insertBulkIn Unicode.ascii ℕ _ Ann.flat {} numberedSchema [RelRun.point, unnumbered]
      .replace).toOption.map Prod.fst = some [.int 1, .int 1] ∧
    ¬@FreshPks Unicode.ascii ℕ _ Ann.flat {} numberedSchema [RelRun.point, unnumbered] .replace := by
  refine ⟨@RowRun.empty Unicode.ascii ℕ _ Ann.flat _ {} rfl rfl, rfl, fun h ↦ ?_⟩
  have hfresh := @FreshPks.allocated Unicode.ascii ℕ _ Ann.flat _ _ _ _ h 1 unnumbered (.int 1) rfl
    rfl rfl
  exact hfresh.alone 0 (by decide) rfl

end TableStore
