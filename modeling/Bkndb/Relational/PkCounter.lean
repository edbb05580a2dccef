import Bkndb.Relational.Invariant

/-!
# The primary-key counter

The counter of an auto-increment table is moved by reservations and by the keys that rows name. It
is kept as `u64` and handed out as `i64`. Every row operation keeps it past the positive keys of the
table.

`CounterAhead` speaks of positive keys only: a key of zero or less is never handed out, so the
counter need not be past it. A counter that has passed the largest `i64` is handed out as a
negative number, which is why some results ask that the block fits.
-/

namespace TableStore

variable {t t' : TableStore} {schema : TableSchema}

/-! ## The counter -/

/-- The next key to be allocated. -/
def nextPk (t : TableStore) : ℕ := t.counter.getD 1

/-- The counter is past every positive key of the table. -/
def CounterAhead (t : TableStore) (schema : TableSchema) : Prop :=
  ∀ row i, t.HasRow schema row → row.pk = .int i → 0 < i.toInt → i.toInt < t.nextPk

/-- What holds of the counter of an auto-increment table. -/
structure CounterOk (t : TableStore) (schema : TableSchema) : Prop where
  pos : 0 < t.nextPk
  bounded : t.nextPk < 2 ^ 64
  ahead : t.CounterAhead schema

/-- A counter as `i64`. -/
def signed (n : ℕ) : ℤ := if n < 2 ^ 63 then n else n - 2 ^ 64

theorem toInt_toInt64_ofNat {n : ℕ} (h : n < 2 ^ 64) :
    (UInt64.ofNat n).toInt64.toInt = signed n := by
  have hnat : (UInt64.ofNat n).toNat = n := by
    rw [UInt64.toNat_ofNat']
    exact Nat.mod_eq_of_lt h
  have hint : (UInt64.ofNat n).toInt64.toInt = if 2 * (UInt64.ofNat n).toNat < 2 ^ 64
      then ((UInt64.ofNat n).toNat : ℤ) else (UInt64.ofNat n).toNat - 2 ^ 64 :=
    BitVec.toInt_eq_toNat_cond _
  rw [hint, hnat, signed]
  split_ifs <;> omega

/-- A reservation of some keys returns the counter and moves it past them. -/
theorem reservePks_eq_ok {count : ℕ} {start : Int64} (hcount : count ≠ 0)
    (h : t.reservePks count = .ok (start, t')) :
    t.nextPk + count < 2 ^ 64 ∧ start.toInt = signed t.nextPk ∧
      t' = { t with counter := some (t.nextPk + count) } := by
  rw [reservePks, if_neg hcount] at h
  obtain ⟨next, hnext, h⟩ := Except.bind_eq_ok.mp h
  obtain ⟨hlt, rfl⟩ := checkedAdd_eq_ok.mp hnext
  obtain ⟨rfl, rfl⟩ := Prod.mk.inj (Except.ok.inj h)
  exact ⟨hlt, toInt_toInt64_ofNat (Nat.lt_of_le_of_lt (Nat.le_add_right _ _) hlt), rfl⟩

/-- A key that a row names moves the counter past itself, and never back. -/
theorem noteExplicitPk_spec (t : TableStore) (schema : TableSchema) (pk : PropValue) :
    (t.noteExplicitPk schema pk).rows = t.rows ∧
      t.nextPk ≤ (t.noteExplicitPk schema pk).nextPk ∧
      (t.nextPk < 2 ^ 64 → (t.noteExplicitPk schema pk).nextPk < 2 ^ 64) ∧
      (schema.autoIncrementPk = true → ∀ i, pk = .int i → 0 < i.toInt →
        i.toInt < (t.noteExplicitPk schema pk).nextPk) := by
  cases pk with
  | int i =>
    rw [noteExplicitPk]
    split
    · have hi := i.toInt_lt
      rw [bumpPkCounterPast, ← nextPk]
      split
      · exact ⟨rfl, le_refl _, id, fun _ j hj hpos ↦ by cases hj; omega⟩
      · dsimp only
        split
        · rename_i hpos hlt
          refine ⟨rfl, ?_, fun _ ↦ ?_, fun _ j hj _ ↦ ?_⟩
          · exact le_of_lt hlt
          · change i.toInt.toNat + 1 < 2 ^ 64
            omega
          · cases hj
            change i.toInt < ((i.toInt.toNat + 1 : ℕ) : ℤ)
            omega
        · exact ⟨rfl, le_refl _, id, fun _ j hj hpos ↦ by cases hj; omega⟩
    · rename_i hauto
      exact ⟨rfl, le_refl _, id, fun h ↦ absurd h hauto⟩
  | _ => exact ⟨rfl, le_refl _, id, fun _ j hj ↦ by cases hj⟩

/-! ## Row writes and the counter -/

theorem CounterOk.of_rows (h : t.CounterOk schema) (hnext : t.nextPk ≤ t'.nextPk)
    (hbounded : t'.nextPk < 2 ^ 64) (hrows : ∀ row, t'.HasRow schema row → ∀ i, row.pk = .int i →
      0 < i.toInt → i.toInt < t'.nextPk ∨ ∃ old, t.HasRow schema old ∧ old.pk = row.pk) :
    t'.CounterOk schema := by
  refine ⟨Nat.lt_of_lt_of_le h.pos hnext, hbounded, fun row i hrow hpk hpos ↦ ?_⟩
  rcases hrows row hrow i hpk hpos with hlt | ⟨old, hold, heq⟩
  · exact hlt
  · have hlt := h.ahead old i hold (heq.trans hpk) hpos
    omega

theorem counterOk_of_empty (hrows : t.rows = ∅) (hcounter : t.counter = none) :
    t.CounterOk schema := by
  have hnext : t.nextPk = 1 := by rw [nextPk, hcounter, Option.getD_none]
  refine ⟨by omega, by omega, fun row i hrow ↦ ?_⟩
  obtain ⟨-, k, -, hget⟩ := hrow
  rw [hrows] at hget
  simp at hget

theorem CounterOk.noteExplicitPk (h : t.CounterOk schema) (pk : PropValue) :
    (t.noteExplicitPk schema pk).CounterOk schema := by
  obtain ⟨hrows, hle, hlt, -⟩ := noteExplicitPk_spec t schema pk
  refine h.of_rows hle (hlt h.bounded) fun row hrow i _ _ ↦ .inr ⟨row, ?_, rfl⟩
  rw [HasRow, hrows] at hrow
  exact hrow

variable [Unicode] {D : Type} [LinearOrder D] {g : Ann.Geometry D}

theorem hasRow_writeRowIn {pk : PropValue} {values : Properties} {onConflict : OnConflict}
    (h : t.writeRowIn g schema pk values onConflict = .ok t') (row : Row) :
    t'.HasRow schema row ↔
      row = ⟨pk, storedValues schema values⟩ ∨ (t.HasRow schema row ∧ row.pk ≠ pk) := by
  obtain ⟨k, old, hchange⟩ := writeRowIn_rowChange h
  have hkind := pkKind_of_validateRow (hchange.valid _ rfl).1
  rw [hchange.hasRow_iff]
  constructor
  · rintro (⟨hrow, hk, hvalues⟩ | ⟨hrow, hk⟩)
    · exact .inl (hchange.eq_new rfl hrow hk hvalues)
    · exact .inr ⟨hrow, fun hpk ↦ hk (hpk ▸ hchange.key)⟩
  · rintro (rfl | ⟨hrow, hpk⟩)
    · exact .inl ⟨hkind, hchange.key, rfl⟩
    · refine .inr ⟨hrow, fun hk ↦ hpk ?_⟩
      exact sortableKey_inj (Option.some.inj (hrow.1.symm.trans hkind)) hk hchange.key

theorem nextPk_writeRowIn {pk : PropValue} {values : Properties} {onConflict : OnConflict}
    (h : t.writeRowIn g schema pk values onConflict = .ok t') : t'.nextPk = t.nextPk := by
  obtain ⟨k, old, hchange⟩ := writeRowIn_rowChange h
  rw [nextPk, hchange.frame.2.1, nextPk]

theorem CounterOk.writeRowIn {pk : PropValue} {values : Properties} {onConflict : OnConflict}
    (hc : t.CounterOk schema) (hpk : ∀ i, pk = .int i → 0 < i.toInt → i.toInt < t.nextPk)
    (h : t.writeRowIn g schema pk values onConflict = .ok t') : t'.CounterOk schema := by
  have hnext := nextPk_writeRowIn h
  refine hc.of_rows hnext.ge (hnext ▸ hc.bounded) fun row hrow i hi hpos ↦ ?_
  rcases (hasRow_writeRowIn h row).mp hrow with rfl | ⟨hrow, -⟩
  · exact .inl (hnext ▸ hpk i hi hpos)
  · exact .inr ⟨row, hrow, rfl⟩

theorem CounterOk.noteAndWrite {pk : PropValue} {values : Properties} {onConflict : OnConflict}
    (hauto : schema.autoIncrementPk = true) (hc : t.CounterOk schema)
    (h : (t.noteExplicitPk schema pk).writeRowIn g schema pk values onConflict = .ok t') :
    t'.CounterOk schema :=
  (hc.noteExplicitPk pk).writeRowIn ((noteExplicitPk_spec t schema pk).2.2.2 hauto) h

theorem CounterOk.insertWithPkBulkIn {items : List (PropValue × Properties)}
    {onConflict : OnConflict} (hauto : schema.autoIncrementPk = true) (hc : t.CounterOk schema)
    (h : t.insertWithPkBulkIn g schema items onConflict = .ok t') : t'.CounterOk schema := by
  rw [TableStore.insertWithPkBulkIn, Except.bind_eq_ok] at h
  obtain ⟨-, -, h⟩ := h
  exact Except.foldlM_invariant (CounterOk · schema) h hc fun e _ s s' hs hstep ↦
    hs.noteAndWrite hauto hstep

theorem CounterOk.rowChange {pk : PropValue} {k : Bytes} {o : Properties}
    {new : Option Properties} (hc : t.CounterOk schema)
    (h : RowChange g schema pk k (some o) new t t') : t'.CounterOk schema := by
  have hnext : t'.nextPk = t.nextPk := by rw [nextPk, h.frame.2.1, nextPk]
  refine hc.of_rows hnext.ge (hnext ▸ hc.bounded) fun row hrow i _ _ ↦ .inr ?_
  rcases h.hasRow_iff.mp hrow with ⟨hkind, hk, hnew⟩ | ⟨hrow, -⟩
  · exact ⟨⟨row.pk, o⟩, ⟨hkind, k, hk, h.old_eq⟩, rfl⟩
  · exact ⟨row, hrow, rfl⟩

theorem CounterOk.deleteRowIn {pk : PropValue} {b : Bool} (hc : t.CounterOk schema)
    (h : t.deleteRowIn g schema pk = .ok (b, t')) : t'.CounterOk schema := by
  rcases deleteRowIn_rowChange h with rfl | ⟨k, o, hchange⟩
  · exact hc
  · exact hc.rowChange hchange

theorem CounterOk.updateRowIn {pk : PropValue} {mutate : Properties → Properties} {b : Bool}
    (hc : t.CounterOk schema) (h : t.updateRowIn g schema pk mutate = .ok (b, t')) :
    t'.CounterOk schema := by
  rcases updateRowIn_rowChange h with rfl | ⟨k, o, hchange⟩
  · exact hc
  · exact hc.rowChange hchange

theorem CounterOk.deleteIn {q : Query} {n : ℕ} (hc : t.CounterOk schema)
    (h : t.deleteIn g schema q = .ok (n, t')) : t'.CounterOk schema := by
  rw [TableStore.deleteIn, Except.bind_eq_ok] at h
  obtain ⟨rows, -, h⟩ := h
  refine Except.foldlM_invariant (fun st ↦ st.2.CounterOk schema) h hc
    fun row _ ↦ ?_
  rintro ⟨n, s⟩ ⟨n', s'⟩ hs hstep
  simp only [Except.bind_eq_ok] at hstep
  obtain ⟨⟨b, s₁⟩, hdelete, hstep⟩ := hstep
  obtain ⟨-, rfl⟩ := Prod.mk.inj (Except.ok.inj hstep)
  exact hs.deleteRowIn hdelete

theorem CounterOk.updateIn {q : Query} {sets : List (String × PropValue)} {n : ℕ}
    (hc : t.CounterOk schema) (h : t.updateIn g schema q sets = .ok (n, t')) :
    t'.CounterOk schema := by
  rw [TableStore.updateIn] at h
  split at h
  · cases h
  simp only [Except.bind_eq_ok] at h
  obtain ⟨rows, -, h⟩ := h
  refine Except.foldlM_invariant (fun st ↦ st.2.CounterOk schema) h hc
    fun row _ ↦ ?_
  rintro ⟨n, s⟩ ⟨n', s'⟩ hs hstep
  simp only [Except.bind_eq_ok] at hstep
  obtain ⟨⟨b, s₁⟩, hupdate, hstep⟩ := hstep
  obtain ⟨-, rfl⟩ := Prod.mk.inj (Except.ok.inj hstep)
  exact hs.updateRowIn hupdate

end TableStore
