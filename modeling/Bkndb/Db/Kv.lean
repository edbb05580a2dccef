import Bkndb.Db.Physical
import Bkndb.Relational.StoreInvariant

/-!
# Raw access

The key-value facade (`kv/mod.rs`) over the physical tables that the typed layers share. Every call
checks the name of its table against the reserved names: the six tables of the graph and `meta`.
The tables that belong to a registered table are not among them, so a call can name one of them and
write to it.

## The condition

Two kinds of tables are within reach of a call and read by the typed layers: the derived tables of
the indexes, and the base tables. A call spares the typed layers (`DbStore.Spares`) if it does nothing
to a table of the first kind and leaves the row it names as it was in one of the second. Rows are
compared as they are read: bytes after the end of a record change nothing.

## Main results

* `Kv.run_undamaged_iff`: along calls that succeed, the derived tables keep their contents, the same
  database is stored and every query keeps its answer if and only if every call spares them.
* `Kv.index_damaged`: one call deletes the entry of a row from an index, another one the row itself,
  and the query through the index loses the row either way.

Each call is a transaction of its own; that the storage accepts it is not modelled.
-/

namespace Kv

def put (T : Tables) (table : String) (key value : Bytes) : Except BknError Tables := do
  checkTableName table
  return Function.update T table ((T table).insert key value)

def delete (T : Tables) (table : String) (key : Bytes) : Except BknError Tables := do
  checkTableName table
  return Function.update T table ((T table).erase key)

/-- A writing call. -/
inductive Call where
  | put (table : String) (key value : Bytes)
  | delete (table : String) (key : Bytes)

namespace Call

/-- The table a call names. -/
def table : Call → String
  | put table _ _ | delete table _ => table

def apply (T : Tables) : Call → Except BknError Tables
  | put table key value => Kv.put T table key value
  | delete table key => Kv.delete T table key

/-- The key a call names. -/
def key : Call → Bytes
  | put _ key _ | delete _ key => key

/-- What a call leaves under its key. -/
def left : Call → Option Bytes
  | put _ _ value => some value
  | delete _ _ => none

/-- What a call makes of its table. -/
def edit (m : OrdMap Bytes Bytes) : Call → OrdMap Bytes Bytes
  | put _ key value => m.insert key value
  | delete _ key => m.erase key

/-- The call stores what is there already, or deletes what is not there. -/
def Idle (m : OrdMap Bytes Bytes) : Call → Prop
  | put _ key value => m.get? key = some value
  | delete _ key => m.get? key = none

theorem edit_eq_self {m : OrdMap Bytes Bytes} {call : Call} : call.edit m = m ↔ call.Idle m := by
  cases call with
  | put table key value =>
    constructor
    · intro h
      have hget := m.get?_insert_self key value
      rwa [show m.insert key value = m from h] at hget
    · intro h
      refine OrdMap.ext fun k ↦ ?_
      rw [edit, OrdMap.get?_insert]
      split
      · next hk => rw [hk, show m.get? key = some value from h]
      · rfl
  | delete table key =>
    constructor
    · intro h
      have hget := m.get?_erase_self key
      rwa [show m.erase key = m from h] at hget
    · exact fun h ↦ OrdMap.erase_of_get?_eq_none h

theorem get?_edit (m : OrdMap Bytes Bytes) (call : Call) (k : Bytes) :
    (call.edit m).get? k = if k = call.key then call.left else m.get? k := by
  by_cases hk : k = call.key
  · subst hk
    rw [if_pos rfl]
    cases call with
    | put table key value => exact m.get?_insert_self key value
    | delete table key => exact m.get?_erase_self key
  · rw [if_neg hk]
    cases call with
    | put table key value => exact m.get?_insert_of_ne value hk
    | delete table key => exact m.get?_erase_of_ne hk

/-- What a call that succeeds does. -/
theorem apply_eq_ok {T T' : Tables} {call : Call} : call.apply T = .ok T' ↔
    call.table ∉ reservedTableNames ∧
      T' = Function.update T call.table (call.edit (T call.table)) := by
  cases call with
  | put table key value =>
    simp only [apply, Kv.put, checkTableName, Except.bind_eq_ok, Except.guardOr_eq_ok]
    constructor
    · rintro ⟨-, hname, h⟩
      exact ⟨hname, (Except.ok.inj h).symm⟩
    · rintro ⟨hname, rfl⟩
      exact ⟨(), hname, rfl⟩
  | delete table key =>
    simp only [apply, Kv.delete, checkTableName, Except.bind_eq_ok, Except.guardOr_eq_ok]
    constructor
    · rintro ⟨-, hname, h⟩
      exact ⟨hname, (Except.ok.inj h).symm⟩
    · rintro ⟨hname, rfl⟩
      exact ⟨(), hname, rfl⟩

end Call

/-- Calls one after the other. -/
def run (T : Tables) (calls : List Call) : Except BknError Tables := calls.foldlM Call.apply T

end Kv

/-! ## A table of points -/

namespace Kv

/-- The codec of one value. -/
private def only {α : Type} (encode : α → Bytes) (a : α) : Codec α where
  encode := encode
  decode b := if (encode a).isPrefixOf b then some (a, b.drop (encode a).length) else none
  Valid x := x = a
  decode_encode x hx rest := by
    subst hx
    rw [if_pos (List.isPrefixOf_iff_prefix.mpr (List.prefix_append ..)), List.drop_left]

/-- The codec of records that are not stored. -/
private def unused (α : Type) : Codec α where
  encode _ := []
  decode _ := none
  Valid _ := False
  decode_encode _ h := h.elim

/-- The stored values of a point. -/
def pointRow : Properties := OrdMap.insert ∅ "x" (.int 5)

/-- The serialization, for a table of points and one point. -/
def pointRecords : Records where
  row := only encodeRow pointRow
  tableDef := only serializeTableDef (pointsSchema ["x"])
  columns := unused _
  annMeta := unused _
  node := unused _
  edge := unused _

/-- The catalog entry of the points, and the tables of their rows and of the index of `x`. -/
def pointTables (rows index : OrdMap Bytes Bytes) : Tables := fun name ↦
  if name = "meta" then OrdMap.insert ∅ (catalogKey "points") (encodeTableDef (pointsSchema ["x"]))
  else if name = "points" then rows
  else if name = "points__idx_x" then index
  else ∅

/-- A database with only the points. -/
def pointDb (rows : OrdMap Bytes Properties) (index : OrdMap Bytes Unit) : DbStore where
  relational := Function.update RelStore.fresh "points"
    { schema := some (pointsSchema ["x"]), rows, index := Function.update (fun _ ↦ ∅) "x" index }

private theorem catalogKey_injective {a b : String} (h : catalogKey a = catalogKey b) : a = b := by
  have h' := congrArg String.toList (String.utf8_injective h)
  rw [String.toList_append, String.toList_append] at h'
  exact String.toList_inj.mp (List.append_cancel_left h')

private theorem statsKey_ne (c : String) : Fulltext.statsKey "points" c ≠ catalogKey "points" := by
  intro h
  have h' := congrArg (List.take 4 ∘ String.toList) (String.utf8_injective h)
  simp [String.toList_append] at h'

private theorem metaKey_ne (c : String) : Ann.metaKey "points" c ≠ catalogKey "points" := by
  intro h
  have h' := congrArg (List.take 4 ∘ String.toList) (String.utf8_injective h)
  simp [String.toList_append] at h'

private theorem relational_pointDb (rows : OrdMap Bytes Properties) (index : OrdMap Bytes Unit) :
    (pointDb rows index).relational "points" =
      { schema := some (pointsSchema ["x"]), rows,
        index := Function.update (fun _ ↦ ∅) "x" index } :=
  rfl

private theorem get?_meta {rows index : OrdMap Bytes Bytes} {key : Bytes}
    (h : key ≠ catalogKey "points") : (pointTables rows index "meta").get? key = none := by
  rw [pointTables, if_pos rfl, OrdMap.get?_insert_of_ne _ _ h, OrdMap.get?_empty]

/-- What the two tables hold is what the database holds. -/
private theorem stored_points {rows index : OrdMap Bytes Bytes} {rows' : OrdMap Bytes Properties}
    {index' : OrdMap Bytes Unit} (hrows : ReadsAll some pointRecords.row.deserialize rows rows')
    (hindex : ReadsAll some readKey index index') :
    (pointDb rows' index').StoredIn pointRecords (pointTables rows index) := by
  have hempty {α : Type} (read : Bytes → Option α) {name : String} (h₁ : name ≠ "meta")
      (h₂ : name ≠ "points") (h₃ : name ≠ "points__idx_x") :
      ReadsAll some read (pointTables rows index name) ∅ := by
    rw [pointTables, if_neg h₁, if_neg h₂, if_neg h₃]
    exact .empty
  refine ⟨⟨?_, ?_, ?_, ?_, ?_, ?_, fun key hown ↦ ?_, fun _ _ ↦ rfl⟩, fun name ↦ ?_⟩
  · exact hempty _ (by decide) (by decide) (by decide)
  · exact hempty _ (by decide) (by decide) (by decide)
  · exact hempty _ (by decide) (by decide) (by decide)
  · exact hempty _ (by decide) (by decide) (by decide)
  · exact hempty _ (by decide) (by decide) (by decide)
  · exact hempty _ (by decide) (by decide) (by decide)
  · rw [get?_meta]
    · rfl
    · rintro rfl
      revert hown
      unfold Graph.OwnKey
      decide
  · by_cases hname : name = "points"
    · subst hname
      rw [relational_pointDb]
      refine ⟨?_, fun schema hschema ↦ ?_⟩
      · rw [pointTables, if_pos rfl, OrdMap.get?_insert_self]
        refine congrArg some ?_
        rw [encodeTableDef, Records.decodeTableDef, if_pos rfl]
        have hdef := pointRecords.tableDef.deserialize_encode (a := pointsSchema ["x"]) rfl []
        rwa [List.append_nil] at hdef
      · obtain rfl := Option.some.inj hschema
        exact
          { counter := by rw [get?_meta (by decide +kernel)]; rfl
            rows := hrows
            index := fun c hc ↦ by
              obtain rfl := List.mem_singleton.mp hc
              exact hindex
            ftsColumns := by rw [get?_meta (by decide +kernel)]; rfl
            ftsStats := fun c ↦ by rw [get?_meta (statsKey_ne c)]; rfl
            postings := fun c hc ↦ absurd hc List.not_mem_nil
            docs := fun c hc ↦ absurd hc List.not_mem_nil
            annColumns := by rw [get?_meta (by decide +kernel)]; rfl
            annMeta := fun c ↦ by rw [get?_meta (metaKey_ne c)]; rfl
            ann := fun c i hi ↦ nomatch hi }
    · have hother : (pointDb rows' index').relational name = {} := Function.update_of_ne hname _ _
      rw [hother]
      refine ⟨?_, fun schema hschema ↦ nomatch hschema⟩
      rw [get?_meta fun h ↦ hname (catalogKey_injective h)]
      rfl

/-! ## Runs over the points -/

/-- The tables of the points with one row, and its entry in the index. -/
def storedPoint : Tables := pointTables (OrdMap.insert ∅ RelRun.pointKey (encodeRow pointRow))
  (OrdMap.insert ∅ RelRun.pointEntry [])

/-- How many points a query through the index finds at `x = 5`. -/
def countAtFive (db : DbStore) : Except BknError ℕ :=
  (@TableStore.selectIn Unicode.ascii (db.relational "points") (pointsSchema ["x"])
    { filters := [.cmp "x" .eq (.int 5)] }).map List.length

private theorem reads_row {value : Bytes} (h : pointRecords.row.deserialize value = some pointRow) :
    ReadsAll some pointRecords.row.deserialize (OrdMap.insert ∅ RelRun.pointKey value)
      (OrdMap.insert ∅ RelRun.pointKey pointRow) :=
  ReadsAll.empty.insert h _

private theorem reads_pointRow (rest : Bytes) :
    pointRecords.row.deserialize (encodeRow pointRow ++ rest) = some pointRow :=
  pointRecords.row.deserialize_encode (a := pointRow) rfl rest

private theorem reads_entry : ReadsAll some readKey (OrdMap.insert ∅ RelRun.pointEntry [])
    (OrdMap.insert ∅ RelRun.pointEntry ()) :=
  ReadsAll.empty.insert (show readKey [] = some () from rfl) _

private theorem stored_point : (pointDb (OrdMap.insert ∅ RelRun.pointKey pointRow)
    (OrdMap.insert ∅ RelRun.pointEntry ())).StoredIn pointRecords storedPoint := by
  have hrow := reads_pointRow []
  rw [List.append_nil] at hrow
  exact stored_points (reads_row hrow) reads_entry

private theorem update_index (rows index index' : OrdMap Bytes Bytes) :
    Function.update (pointTables rows index) "points__idx_x" index' = pointTables rows index' := by
  funext name
  by_cases hname : name = "points__idx_x"
  · subst hname
    rfl
  · rw [Function.update_of_ne hname, pointTables, pointTables, if_neg hname, if_neg hname]

private theorem update_rows (rows rows' index : OrdMap Bytes Bytes) :
    Function.update (pointTables rows index) "points" rows' = pointTables rows' index := by
  funext name
  by_cases hname : name = "points"
  · subst hname
    rfl
  · rw [Function.update_of_ne hname, pointTables, pointTables, if_neg hname, if_neg hname]

/-- The name of an index table has two underscores in a row. -/
private theorem not_searchTable {s : RelStore} {name : String}
    (h : ¬['_', '_'] <:+: name.toList) : ¬s.SearchTable name := by
  intro hsearch
  refine h ?_
  cases hsearch <;> exact PhysicalTable.double_derivedTable ..

end Kv

/-! ## Damage -/

namespace DbStore

variable [Unicode] {S D : Type} [LinearOrder S] [LinearOrder D] (sc : Ann.Scoring S)
  (g : Ann.Geometry D) (ln : F64 → F64) (rec : Records)

/-- What raw access leaves to the typed layers: the derived tables keep their contents, the same
database is stored, and whatever is read instead answers every query as it does. -/
structure Undamaged (db : DbStore) (T T' : Tables) : Prop where
  contents : ∀ name, db.Derived name → T' name = T name
  stored : db.StoredIn rec T'
  answers : ∀ db' : DbStore, db'.StoredIn rec T' → db.AnswersAs sc g ln db'

/-- The call does nothing to a table of an index, and leaves a row of a registered table as it
was. -/
structure Spares (db : DbStore) (T : Tables) (call : Kv.Call) : Prop where
  idle : db.relational.SearchTable call.table → call.Idle (T call.table)
  row : (db.relational call.table).schema.isSome → call.left.map rec.row.deserialize =
    ((T call.table).get? call.key).map rec.row.deserialize

variable {sc g ln rec} {db : DbStore} {T T' : Tables}

theorem StoredIn.undamaged (h : db.StoredIn rec T)
    (hcontents : ∀ name, db.Derived name → T' name = T name) (hrows : db.SameRows rec T T') : db.Undamaged sc g ln rec T T' :=
  have h' := h.congr hcontents hrows
  ⟨hcontents, h', fun _ hdb ↦ h'.answers sc g ln hdb⟩

/-- A call that spares the typed layers keeps them undamaged. -/
theorem Undamaged.call {T₁ T₂ : Tables} {call : Kv.Call} (hstored : db.StoredIn rec T)
    (h : db.Undamaged sc g ln rec T T₁) (hspares : db.Spares rec T call)
    (hstep : call.apply T₁ = .ok T₂) : db.Undamaged sc g ln rec T T₂ := by
  obtain ⟨hname, rfl⟩ := Kv.Call.apply_eq_ok.mp hstep
  refine hstored.undamaged (fun name hderived ↦ ?_) fun name schema hschema k ↦ ?_
  · by_cases heq : name = call.table
    · subst heq
      have hsearch := hderived.resolve_left hname
      rw [Function.update_self, h.contents _ hderived]
      exact Kv.Call.edit_eq_self.mpr (hspares.idle hsearch)
    · rw [Function.update_of_ne heq, h.contents name hderived]
  · have hsame := hstored.sameRows h.stored name schema hschema k
    by_cases heq : name = call.table
    · subst heq
      rw [Function.update_self, Kv.Call.get?_edit]
      split
      · next hk => rw [hk, hspares.row (by rw [hschema]; rfl)]
      · exact hsame
    · rw [Function.update_of_ne heq, hsame]

/-- A call that kept them undamaged spared them. -/
theorem Undamaged.spares {T₁ T₂ : Tables} {call : Kv.Call} (hstored : db.StoredIn rec T)
    (h₁ : db.Undamaged sc g ln rec T T₁) (hstep : call.apply T₁ = .ok T₂)
    (h₂ : db.Undamaged sc g ln rec T T₂) : db.Spares rec T call := by
  obtain ⟨-, rfl⟩ := Kv.Call.apply_eq_ok.mp hstep
  constructor
  · intro hsearch
    have hsame := h₂.contents _ (.inr hsearch)
    rw [Function.update_self, h₁.contents _ (.inr hsearch)] at hsame
    exact Kv.Call.edit_eq_self.mp hsame
  · intro hregistered
    obtain ⟨schema, hschema⟩ := Option.isSome_iff_exists.mp hregistered
    have hsame := hstored.sameRows h₂.stored call.table schema hschema call.key
    rwa [Function.update_self, Kv.Call.get?_edit, if_pos rfl] at hsame

end DbStore

/-- **Raw access leaves the typed layers alone while it spares their tables.** Along calls that
succeed, the derived tables keep their contents throughout, the same database is stored and every
query keeps its answer, if and only if every call that names a table of an index is idle and every
call that names a registered table leaves the row as it was. -/
theorem Kv.run_undamaged_iff [Unicode] {S D : Type} [LinearOrder S] [LinearOrder D]
    (sc : Ann.Scoring S) (g : Ann.Geometry D) (ln : F64 → F64) (rec : Records) (db : DbStore)
    {T T' : Tables} {calls : List Kv.Call} (hstored : db.StoredIn rec T)
    (h : Kv.run T calls = .ok T') :
    (∀ (done : List Kv.Call) (T₁ : Tables), done <+: calls → Kv.run T done = .ok T₁ →
      db.Undamaged sc g ln rec T T₁) ↔ ∀ call ∈ calls, db.Spares rec T call := by
  constructor
  · intro hrun call hcall
    obtain ⟨done, rest, rfl⟩ := List.append_of_mem hcall
    -- the states just before and just after the call
    rw [run, List.foldlM_append, Except.bind_eq_ok] at h
    obtain ⟨T₁, h₁, h⟩ := h
    rw [List.foldlM_cons, Except.bind_eq_ok] at h
    obtain ⟨T₂, h₂, -⟩ := h
    have hnext : run T (done ++ [call]) = .ok T₂ := by
      rw [run, List.foldlM_append, h₁, Except.ok_bind, List.foldlM_cons, h₂]
      rfl
    exact (hrun done T₁ (List.prefix_append ..) h₁).spares hstored h₂
      (hrun (done ++ [call]) T₂ ⟨rest, by simp⟩ hnext)
  · intro hspares done T₁ hpre hdone
    exact Except.foldlM_invariant (db.Undamaged sc g ln rec T) hdone
      (hstored.undamaged (fun _ _ ↦ rfl) fun _ _ _ _ ↦ rfl) fun call hcall _ _ hs hstep ↦
        hs.call hstored (hspares call (hpre.subset hcall)) hstep

namespace Kv

/-- Calls on a table of the caller, one that finds nothing to delete in an index, and one that
stores a row again with a byte behind it. -/
theorem run_undamaged_points : ∃ T' : Tables,
    run storedPoint [.put "cache" [1] [2], .delete "points__idx_x" [1],
      .put "points" RelRun.pointKey (encodeRow pointRow ++ [0])] = .ok T' ∧
    T' "points" ≠ storedPoint "points" ∧
    @DbStore.Undamaged Unicode.ascii F64 ℕ _ _ .double Ann.flat id pointRecords
      (pointDb (OrdMap.insert ∅ RelRun.pointKey pointRow) (OrdMap.insert ∅ RelRun.pointEntry ()))
      storedPoint T' := by
  obtain ⟨T', hrun, hne⟩ : ∃ T' : Tables, run storedPoint [.put "cache" [1] [2],
      .delete "points__idx_x" [1], .put "points" RelRun.pointKey (encodeRow pointRow ++ [0])] =
        .ok T' ∧ T' "points" ≠ storedPoint "points" := ⟨_, rfl, by decide +kernel⟩
  refine ⟨T', hrun, hne, (@run_undamaged_iff Unicode.ascii F64 ℕ _ _ .double Ann.flat id _ _ _ _ _
    stored_point hrun).mpr ?_ _ T' (List.prefix_refl _) hrun⟩
  intro call hcall
  simp only [List.mem_cons, List.not_mem_nil, or_false] at hcall
  rcases hcall with rfl | rfl | rfl
  · exact ⟨fun h ↦ absurd h (not_searchTable (by decide)), fun h ↦ nomatch h⟩
  · refine ⟨fun _ ↦ ?_, fun h ↦ nomatch h⟩
    change (storedPoint "points__idx_x").get? [1] = none
    decide +kernel
  · refine ⟨fun h ↦ absurd h (not_searchTable (by decide)), fun _ ↦ ?_⟩
    have hrow := reads_pointRow []
    rw [List.append_nil] at hrow
    exact congrArg some ((reads_pointRow [0]).trans hrow.symm)

/-- **Raw access reaches the indexes and the rows.** On the database of a run, a call that deletes
the entry of a row from the index succeeds, and so does one that deletes the row from the table: the
first one changes a derived table, the second one none, and the query through the index loses the
row. -/
theorem index_damaged : ∃ (r : RelRun) (rec : Records) (T T₁ T₂ : Tables),
    @RelRun.Reachable Unicode.ascii ℕ _ Ann.flat (fun op ↦ op.Constructible ∧ op.Declares) r ∧
      DbStore.StoredIn rec T { relational := r.store } ∧
      plan (pointsSchema ["x"]) [.cmp "x" .eq (.int 5)] = .ok (.indexEq "x" [.int 5]) ∧
      countAtFive { relational := r.store } = .ok 1 ∧
      run T [.delete "points__idx_x" RelRun.pointEntry] = .ok T₁ ∧
      ¬(∀ name, DbStore.Derived { relational := r.store } name → T₁ name = T name) ∧
      (∃ db : DbStore, db.StoredIn rec T₁ ∧ countAtFive db = .ok 0) ∧
      run T [.delete "points" RelRun.pointKey] = .ok T₂ ∧
      (∀ name, DbStore.Derived { relational := r.store } name → T₂ name = T name) ∧
      ∃ db : DbStore, db.StoredIn rec T₂ ∧ countAtFive db = .ok 0 := by
  obtain ⟨r, hreach, hstore, -⟩ := RelRun.exists_points
  have hdb : ({ relational := r.store } : DbStore) =
      pointDb (OrdMap.insert ∅ RelRun.pointKey pointRow)
        (OrdMap.insert ∅ RelRun.pointEntry ()) := by
    rw [hstore]
    rfl
  have hrow := reads_pointRow []
  rw [List.append_nil] at hrow
  have hindex : (OrdMap.insert ∅ RelRun.pointEntry ([] : Bytes)).erase RelRun.pointEntry = ∅ :=
    OrdMap.erase_insert [] rfl
  have hrows : (OrdMap.insert ∅ RelRun.pointKey (encodeRow pointRow)).erase RelRun.pointKey = ∅ :=
    OrdMap.erase_insert _ rfl
  refine ⟨r, pointRecords, storedPoint,
    pointTables (OrdMap.insert ∅ RelRun.pointKey (encodeRow pointRow)) ∅,
    pointTables ∅ (OrdMap.insert ∅ RelRun.pointEntry []), hreach, hdb ▸ stored_point, rfl, ?_, ?_,
    fun h ↦ ?_, ⟨_, stored_points (reads_row hrow) .empty, rfl⟩, ?_, fun name hname ↦ ?_,
    ⟨_, stored_points .empty reads_entry, rfl⟩⟩
  · rw [hdb]
    rfl
  · rw [run, List.foldlM_cons, Call.apply_eq_ok.mpr ⟨by decide, rfl⟩]
    refine congrArg Except.ok ?_
    rw [← hindex]
    exact update_index ..
  · have hsearch : r.store.SearchTable "points__idx_x" :=
      .index (t := "points") (c := "x") (by rw [hstore, Function.update_self]; rfl)
        (List.mem_singleton_self _)
    exact absurd (congrArg OrdMap.size (h "points__idx_x" (.inr hsearch))) (by decide +kernel)
  · rw [run, List.foldlM_cons, Call.apply_eq_ok.mpr ⟨by decide, rfl⟩]
    refine congrArg Except.ok ?_
    rw [← hrows]
    exact update_rows ..
  · have hpoints : name ≠ "points" := by
      rintro rfl
      exact hname.elim (fun h ↦ absurd h (by decide)) (not_searchTable (by decide))
    rw [storedPoint, pointTables, pointTables, if_neg hpoints, if_neg hpoints]

end Kv
