import Bkndb.Relational.Invariant

/-!
# Which errors a write ends in

A row write fails with `DuplicateKey` in one place only, when an insert meets a row under its key.
Validation, unique columns, index keys and the search indexes fail with other errors. The full-text
indexes raise no error at all: their counters can only overflow.

Each lemma is about one function and says which errors it can end in, in terms of those of its
calls. Only the errors that are told apart by the results are named: a taken key, an overflow, and
everything else.
-/

open Except

/-- An error other than that of a taken key. -/
def NotDuplicate : BknError → Prop
  | .duplicateKey _ _ => False
  | _ => True

/-- A panic, which no caller sees as an error. -/
def Panics (e : BknError) : Prop := ∃ message, e = .panic message

theorem notDuplicate_of_panics {e : BknError} (h : Panics e) : NotDuplicate e := by
  obtain ⟨message, rfl⟩ := h
  trivial

theorem raises_checkedAdd (a b : ℕ) : Raises Panics (checkedAdd a b) :=
  ⟨fun _ h ↦ panic_of_checkedAdd h⟩

/-! ## Keys -/

theorem raises_sortableEncode (v : PropValue) : Raises NotDuplicate (sortableEncode v) :=
  .ofOption trivial _

theorem raises_decodeSortable (kind : ColumnKind) (b : Bytes) :
    Raises NotDuplicate (decodeSortable kind b) := by
  rw [decodeSortable.eq_def]
  split
  · split <;> first | exact .ok _ | exact .error trivial
  · split <;> first | exact .ok _ | exact .error trivial
  · split <;> first | exact .ok _ | exact .error trivial
  · split
    · exact .error trivial
    · split
      · exact .error trivial
      · exact (Raises.ofOption trivial _).map _
  · exact .error trivial

theorem raises_indexKey (v pk : PropValue) : Raises NotDuplicate (indexKey v pk) :=
  (raises_sortableEncode v).bind fun _ ↦ (raises_sortableEncode pk).bind fun _ ↦ .ok _

theorem raises_indexedValueLen (kind : ColumnKind) (key : Bytes) :
    Raises NotDuplicate (indexedValueLen kind key) := by
  rw [indexedValueLen.eq_def]
  split
  · exact .ok _
  · exact .ok _
  · exact .ok _
  · split <;> first | exact .ok _ | exact .error trivial
  · exact .error trivial

theorem raises_pkFromIndexKey (indexedKind pkKind : ColumnKind) (key : Bytes) :
    Raises NotDuplicate (pkFromIndexKey indexedKind pkKind key) :=
  (raises_indexedValueLen indexedKind key).bind fun _ ↦
    (Raises.guardOr trivial).bind fun _ ↦ raises_decodeSortable pkKind _

/-! ## Lookups and constraints -/

theorem raises_primaryKeyColumn (schema : TableSchema) :
    Raises NotDuplicate schema.primaryKeyColumn :=
  .ofOption trivial _

theorem raises_checkValue (schema : TableSchema) (name : String) (v : PropValue) :
    Raises NotDuplicate (checkValue schema name v) :=
  (Raises.ofOption trivial _).bind fun _ ↦ .guardOr trivial

theorem raises_validateRow (schema : TableSchema) (pk : PropValue) (values : Properties) :
    Raises NotDuplicate (validateRow schema pk values) := by
  rw [validateRow]
  refine (Raises.guardOr trivial).bind fun _ ↦ ?_
  refine (raises_checkValue schema _ pk).bind fun _ ↦ ?_
  refine (Raises.forM (f := fun e : String × PropValue ↦ checkValue schema e.1 e.2)
    (fun e ↦ raises_checkValue schema e.1 e.2) values.entries).bind fun _ ↦ ?_
  exact .forM (fun _ ↦ .guardOr trivial) _

namespace TableStore

theorem raises_resolveIndexRow (t : TableStore) (schema : TableSchema) (column : String)
    (kind pkKind : ColumnKind) (key : Bytes) :
    Raises NotDuplicate (t.resolveIndexRow schema column kind pkKind key) := by
  refine (raises_pkFromIndexKey kind pkKind key).bind fun pk ↦ ?_
  split <;> exact .ok _

theorem raises_indexLookupEqIn (t : TableStore) (schema : TableSchema) (column : String)
    (v : PropValue) : Raises NotDuplicate (t.indexLookupEqIn schema column v) :=
  (raises_sortableEncode v).bind fun _ ↦ (Raises.ofOption trivial _).bind fun _ ↦
    (raises_primaryKeyColumn schema).bind fun _ ↦
      (Raises.mapM (fun _ ↦ t.raises_resolveIndexRow _ _ _ _ _) _).bind fun _ ↦ .ok _

theorem raises_checkUnique (t : TableStore) (schema : TableSchema) (row : Row)
    (changedFrom : Option Row) : Raises NotDuplicate (t.checkUnique schema row changedFrom) := by
  refine .forM (fun c ↦ ?_) _
  rw [checkUniqueColumn]
  split
  · exact .ok _
  · split
    · exact .ok _
    · exact (t.raises_indexLookupEqIn _ _ _).bind fun _ ↦ .guardOr trivial

/-! ## Indexes -/

theorem raises_addIndexEntry (schema : TableSchema) (row : Row) (t : TableStore)
    (column : String) : Raises NotDuplicate (addIndexEntry schema row t column) := by
  rw [addIndexEntry]
  split
  · exact .ok _
  · exact (raises_indexKey _ _).bind fun _ ↦ .ok _

theorem raises_termFrequencies (tokens : List String) :
    Raises Panics (termFrequencies tokens) := by
  refine .foldlM (fun tf t ↦ ?_) _ _
  rw [countTerm]
  split <;> first | exact .ok _ | exact .error ⟨_, rfl⟩

variable [Unicode]

theorem raises_indexText (t : TableStore) (column : String) (pk : Bytes) (text : String) :
    Raises Panics (t.indexText column pk text) := by
  rw [indexText]
  refine (raises_termFrequencies _).bind fun _ ↦ ?_
  refine (raises_checkedAdd _ _).bind fun _ ↦ ?_
  exact (raises_checkedAdd _ _).bind fun _ ↦ .ok _

theorem raises_unindexText (t : TableStore) (column : String) (pk : Bytes) (text : String) :
    Raises Panics (t.unindexText column pk text) :=
  (raises_termFrequencies _).bind fun _ ↦ .ok _

theorem raises_ftsColumnChange (pk : Bytes) (old new : Option Properties) (t : TableStore)
    (column : String) : Raises Panics (ftsColumnChange pk old new t column) := by
  rw [ftsColumnChange]
  split
  · exact .ok _
  cases textOf old column <;> cases textOf new column
  · exact .ok _
  · exact t.raises_indexText _ _ _
  · exact (t.raises_unindexText _ _ _).bind fun _ ↦ .ok _
  · exact (t.raises_unindexText _ _ _).bind fun _ ↦ raises_indexText _ _ _ _

variable {D : Type} [LinearOrder D] (g : Ann.Geometry D)

omit [Unicode] in
theorem raises_descend (h : Ann.Hnsw) (q : List F32) (downTo : ℕ) :
    Raises NotDuplicate (h.descend g q downTo) :=
  (Raises.ofOption trivial _).bind fun _ ↦
    ((Raises.ofOption trivial _).bind fun _ ↦ .ok _).bind fun _ ↦ .ok _

omit [Unicode] in
theorem raises_link (h : Ann.Hnsw) (id : ℕ) (n : Ann.Node) :
    Raises NotDuplicate (h.link g id n) := by
  rw [Ann.Hnsw.link]
  split
  · exact .ok _
  · exact (raises_descend g h _ _).bind fun _ ↦ .ok _

omit [Unicode] in
theorem raises_add (h : Ann.Hnsw) (pk : Bytes) (vector : List F32) :
    Raises NotDuplicate (h.add g pk vector) := by
  rw [Ann.Hnsw.add]
  split
  · exact .ok _
  refine Raises.bind ?_ fun h' ↦ ?_
  · rw [Ann.Hnsw.checkDim]
    split
    · exact .ok _
    · split <;> first | exact .ok _ | exact .error trivial
  · split
    · exact .ok _
    · refine Raises.bind ?_ fun h'' ↦ raises_link g h'' _ _
      refine Raises.mono ?_ fun _ ↦ notDuplicate_of_panics
      exact (raises_checkedAdd _ _).bind fun _ ↦ (raises_checkedAdd _ _).bind fun _ ↦ .ok _

omit [Unicode] in
theorem raises_onChange (h : Ann.Hnsw) (pk : Bytes) (before after : Option PropValue) :
    Raises NotDuplicate (h.onChange g pk before after) := by
  rw [Ann.Hnsw.onChange]
  split
  · exact .ok _
  · dsimp only
    split
    · exact raises_add g _ _ _
    · exact .ok _

omit [Unicode] in
theorem raises_annColumnChange (table : String) (pk : Bytes) (old new : Option Properties)
    (t : TableStore) (column : String) :
    Raises NotDuplicate (annColumnChange g table pk old new t column) := by
  rw [annColumnChange]
  split
  · exact .ok _
  · exact (Raises.ofOption trivial _).bind fun h ↦
      (raises_onChange g h _ _ _).bind fun _ ↦ .ok _

theorem raises_onRowChange (t : TableStore) (schema : TableSchema) (pk : PropValue)
    (old new : Option Properties) : Raises NotDuplicate (t.onRowChange g schema pk old new) := by
  rw [onRowChange]
  split
  · exact .ok _
  refine (raises_sortableEncode pk).bind fun _ ↦ ?_
  refine (Raises.foldlM (fun _ _ ↦ raises_annColumnChange g _ _ _ _ _ _) _ _).bind fun _ ↦ ?_
  exact .foldlM (fun _ _ ↦ (raises_ftsColumnChange _ _ _ _ _).mono
    fun _ ↦ notDuplicate_of_panics) _ _

/-! ## Row writes -/

/-- **A write fails with `DuplicateKey` only when its table has a row under its key.** -/
theorem writeRowIn_duplicateKey {t : TableStore} {schema : TableSchema} {pk : PropValue}
    {values : Properties} {onConflict : OnConflict} {table : String} {key : Message}
    (h : t.writeRowIn g schema pk values onConflict = .error (.duplicateKey table key)) :
    ∃ row, t.HasRow schema row ∧ row.pk = pk := by
  rw [writeRowIn, Except.bind_eq_error] at h
  rcases h with h | ⟨⟨⟩, hvalid, h⟩
  · exact ((raises_validateRow _ _ _).of_error _ h).elim
  rw [Except.bind_eq_error] at h
  rcases h with h | ⟨k, hk, h⟩
  · exact ((raises_sortableEncode _).of_error _ h).elim
  rw [sortableEncode_eq_ok] at hk
  cases hold : t.rows.get? k with
  | some old => exact ⟨⟨pk, old⟩, ⟨pkKind_of_validateRow hvalid, k, hk, hold⟩, rfl⟩
  | none =>
    -- past the check nothing fails in this way
    rw [hold] at h
    refine (Raises.of_error (P := NotDuplicate) ?_ _ h).elim
    refine Raises.bind (Raises.mk fun e he ↦ ?_) fun _ ↦ ?_
    · rw [Except.guardOr, if_pos (.inl rfl)] at he
      cases he
    refine (t.raises_checkUnique _ _ _).bind fun _ ↦ ?_
    refine Raises.bind (.ok t) fun _ ↦ ?_
    refine (Raises.foldlM (fun _ _ ↦ raises_addIndexEntry _ _ _ _) _ _).bind fun _ ↦ ?_
    exact raises_onRowChange g _ _ _ _ _

end TableStore
