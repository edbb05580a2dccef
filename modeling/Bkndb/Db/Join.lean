import Mathlib.Data.List.AList
import Mathlib.Data.List.Sort
import Bkndb.Db.Sync
import Bkndb.Relational.Select

/-!
# Joins of nodes with rows

The join of nodes with the rows that refer to them by an integer column (`hybrid.rs`). With an index
on the column the rows of each node are looked up in it; without one the table is scanned once and
its rows are grouped by the column. Both ways are compared with a third: the rows of a scan,
filtered for the node.

## Main results

* `joinNode_groups` and `joinNode_index`: each way of finding the rows of a node against filtering
  a scan.
* `joinNodesByColumn_indexed_eq`: so the index does not show in the result, in a table whose
  indexed columns hold values of their kinds.
* `not_joinNodesByColumn_adopted`: in a table without that it does. A table that was found without
  a catalog entry is taken over with its rows as they are.

A node whose identifier does not fit an `Int` column has no rows, in either way.
-/

namespace Hybrid

open PropValue TableStore

/-- A node with the rows that refer to it. -/
structure JoinedNodeRows where
  id : NodeId
  node : Option NodeRecord
  rows : List Row

/-- The identifier of a node as a value of an `Int` column. -/
def nodeIdValue (id : NodeId) : Except BknError PropValue := do
  .guardOr (id.id.toNat < 2 ^ 63) (.encoding s!"NodeId {id.id} does not fit in an Int column")
  return .int id.id.toInt64

/-- The identifiers that fit an `Int` column. -/
def targetFks (nodes : List NodeId) : List Int64 :=
  nodes.filterMap fun id ↦ if id.id.toNat < 2 ^ 63 then some id.id.toInt64 else none

/-- Rows by the value of an integer column. -/
abbrev FkGroups := AList fun _ : Int64 ↦ List Row

/-- Put a row in its group, if it is asked for. -/
def groupRow (schema : TableSchema) (column : String) (targets : List Int64) (groups : FkGroups)
    (row : Row) : FkGroups :=
  match row.get schema column with
  | some (.int fk) =>
    if fk ∈ targets then groups.insert fk ((groups.lookup fk).getD [] ++ [row]) else groups
  | _ => groups

/-- The rows that refer to the nodes, grouped, when the column has no index. -/
def groupsByFk (t : TableStore) (nodes : List NodeId) (schema : TableSchema) (column : String) :
    Except BknError (Option FkGroups) :=
  if schema.isIndexed column then .ok none
  else do
    let rows ← t.scanAllIn schema
    return some (rows.foldl (groupRow schema column (targetFks nodes)) ∅)

/-- The rows that refer to a node, from the groups if there are groups. -/
def joinNode (graph : GraphStore) (t : TableStore) (schema : TableSchema) (column : String)
    (byFk : Option FkGroups) (id : NodeId) : Except BknError JoinedNodeRows := do
  let node := graph.getNodeIn id
  let val ← nodeIdValue id
  let rows ← match byFk, val with
    | some groups, .int fk => pure ((groups.lookup fk).getD [])
    | _, _ => t.indexLookupEqIn schema column val
  return ⟨id, node, rows⟩

/-- Join nodes with the rows that refer to them by a column. -/
def joinNodesByColumn (graph : GraphStore) (t : TableStore) (nodes : List NodeId)
    (schema : TableSchema) (foreignKeyCol : String) : Except BknError (List JoinedNodeRows) := do
  let col ← .ofOption
    (.encoding s!"no such column '{foreignKeyCol}' in schema '{schema.name}'")
    (schema.column foreignKeyCol)
  .guardOr (col.kind = .int) (.encoding
    s!"foreign key column '{foreignKeyCol}' is {col.kind.debug}, expected Int")
  if nodes.isEmpty then return []
  let byFk ← groupsByFk t nodes schema foreignKeyCol
  nodes.mapM (joinNode graph t schema foreignKeyCol byFk)

/-! ## The rows of a node

Filtering all rows by the integer they hold is what a join is for. Both ways of the source are
proved equal to it, with the rows in the order of the scan. -/

/-- Whether a row has an integer in a column. -/
def refersTo (schema : TableSchema) (column : String) (fk : Int64) (row : Row) : Bool :=
  match row.get schema column with
  | some (.int i) => i == fk
  | _ => false

/-- The join of a node, by filtering all rows. -/
def joinByFilter (graph : GraphStore) (schema : TableSchema) (column : String) (rows : List Row)
    (id : NodeId) : Except BknError JoinedNodeRows := do
  let _ ← nodeIdValue id
  return ⟨id, graph.getNodeIn id, rows.filter (refersTo schema column id.id.toInt64)⟩

variable {graph : GraphStore} {t : TableStore} {schema : TableSchema} {column : String}
  {nodes : List NodeId} {rows : List Row} {fk : Int64}

theorem refersTo_iff {row : Row} :
    refersTo schema column fk row = true ↔ row.get schema column = some (.int fk) := by
  rw [refersTo]
  split
  · rename_i i h
    rw [h, beq_iff_eq, Option.some_inj, PropValue.int.injEq]
  · rename_i hne
    exact ⟨fun h ↦ by simp at h, fun h ↦ absurd h (hne fk)⟩

/-- A group holds the rows that refer to its key, in their order. -/
theorem lookup_foldl_groupRow {targets : List Int64} (hfk : fk ∈ targets) (groups : FkGroups) :
    ((rows.foldl (groupRow schema column targets) groups).lookup fk).getD [] =
      (groups.lookup fk).getD [] ++ rows.filter (refersTo schema column fk) := by
  induction rows generalizing groups with
  | nil => simp
  | cons row rows ih =>
    rw [List.foldl_cons, ih, List.filter_cons]
    by_cases hrefers : refersTo schema column fk row = true
    · rw [if_pos hrefers, groupRow, refersTo_iff.mp hrefers]
      dsimp only
      rw [if_pos hfk, AList.lookup_insert, Option.getD_some, List.append_assoc,
        List.singleton_append]
    · rw [if_neg hrefers, groupRow]
      rw [refersTo_iff] at hrefers
      split
      · rename_i i hi
        split_ifs
        · rw [AList.lookup_insert_ne]
          rintro rfl
          exact hrefers hi
        · rfl
      · rfl

theorem mem_targetFks {id : NodeId} (hid : id ∈ nodes) (hfits : id.id.toNat < 2 ^ 63) :
    id.id.toInt64 ∈ targetFks nodes :=
  List.mem_filterMap.mpr ⟨id, hid, if_pos hfits⟩

/-- **Grouping a scan** joins as filtering it. -/
theorem joinNode_groups {id : NodeId} (hid : id ∈ nodes) :
    joinNode graph t schema column
      (some (rows.foldl (groupRow schema column (targetFks nodes)) ∅)) id =
        joinByFilter graph schema column rows id := by
  rw [joinNode, joinByFilter, nodeIdValue]
  by_cases hfits : id.id.toNat < 2 ^ 63
  · simp only [Except.guardOr, if_pos hfits, Except.ok_bind, pure_bind]
    rw [lookup_foldl_groupRow (mem_targetFks hid hfits)]
    rfl
  · simp only [Except.guardOr, if_neg hfits, Except.error_bind]

/-- The order of a scan. -/
def KeyLt (a b : Row) : Prop :=
  ∃ x y, sortableKey a.pk = some x ∧ sortableKey b.pk = some y ∧ x < y

/-- **An index lookup** joins as filtering a scan. -/
theorem joinNode_index (h : t.Indexed schema) (hindexed : column ∈ schema.indexedColumns)
    {col : ColumnSchema} (hcol : schema.column column = some col) (hkind : col.kind = .int)
    (hrows : t.scanAllIn schema = .ok rows) (id : NodeId) :
    joinNode graph t schema column none id = joinByFilter graph schema column rows id := by
  rw [joinNode, joinByFilter, nodeIdValue]
  by_cases hfits : id.id.toNat < 2 ^ 63
  · simp only [Except.guardOr, if_pos hfits, Except.ok_bind, pure_bind]
    obtain ⟨found, hfound, hnodup, hmem⟩ := indexLookupEqIn_spec h hindexed hcol
      (v := .int id.id.toInt64) hkind.symm rfl
    have hasc := ascending_of_indexLookupEqIn h hindexed hcol hfound
      fun row hrow ↦ ((hmem row).mp hrow).2
    obtain ⟨all, hall, hspec⟩ := scanAllIn_spec h.rowsKeyed h.pkDeclared
    obtain rfl := Except.ok.inj (hall.symm.trans hrows)
    have hsame : found = all.filter (refersTo schema column id.id.toInt64) := by
      have hirrefl : Std.Irrefl KeyLt := ⟨fun a h ↦ by
        obtain ⟨x, y, hx, hy, hlt⟩ := h
        obtain rfl := Option.some.inj (hx.symm.trans hy)
        exact lt_irrefl _ hlt⟩
      have hanti : Std.Antisymm KeyLt := ⟨fun a b h h' ↦ by
        obtain ⟨x, y, hx, hy, hlt⟩ := h
        obtain ⟨y', x', hy', hx', hlt'⟩ := h'
        obtain rfl := Option.some.inj (hx.symm.trans hx')
        obtain rfl := Option.some.inj (hy.symm.trans hy')
        exact absurd hlt (lt_asymm hlt')⟩
      refine List.Pairwise.eq_of_mem_iff (r := KeyLt) hasc (hspec.ascending.filter _) fun row ↦ ?_
      rw [hmem, List.mem_filter, hspec.mem_unbounded, refersTo_iff, indexable, nonNull_eq_some]
      exact and_congr_right fun _ ↦ and_iff_left rfl
    rw [hfound, hsame]
    rfl
  · simp only [Except.guardOr, if_neg hfits, Except.error_bind]

/-- What a join does once its column is known to be an integer column: it filters a scan. -/
theorem joinNodesByColumn_eq (hs : t.Indexed schema) {col : ColumnSchema}
    (hcol : schema.column column = some col) (hkind : col.kind = .int)
    (hrows : t.scanAllIn schema = .ok rows) :
    joinNodesByColumn graph t nodes schema column =
      nodes.mapM (joinByFilter graph schema column rows) := by
  rw [joinNodesByColumn, hcol]
  simp only [Except.ofOption, Except.ok_bind, Except.guardOr, if_pos hkind]
  split_ifs with hempty
  · rw [List.isEmpty_iff.mp hempty]
    rfl
  rw [groupsByFk]
  split_ifs with hindexed
  · rw [Except.ok_bind]
    exact Except.mapM_congr fun id _ ↦ joinNode_index hs
      (List.contains_iff_mem.mp hindexed) hcol hkind hrows id
  · rw [hrows, Except.ok_bind]
    exact Except.mapM_congr fun id hid ↦ joinNode_groups hid

/-- A table stays indexed when fewer of its columns have an index. -/
theorem indexed_of_subset (h : t.Indexed schema) {indexed : List String}
    (hsub : indexed ⊆ schema.indexedColumns) :
    t.Indexed { schema with indexedColumns := indexed } :=
  ⟨⟨h.pkDeclared, h.rowsKeyed, fun c hc ↦
    have hexact := h.indexExact c (hsub hc)
    ⟨hexact.complete, hexact.sound⟩⟩, fun c hc ↦ h.indexTyped c (hsub hc)⟩

/-- **The two ways of joining agree.** Whether or not the column has an index, over the same rows a
join returns the same rows for each node in the same order, or the same error, where the indexed
columns hold values of their kinds. -/
theorem joinNodesByColumn_indexed_eq {indexed : List String} {t' : TableStore}
    (hs : t.Indexed schema) (hs' : t'.Indexed { schema with indexedColumns := indexed })
    (hrows : t'.rows = t.rows) (graph : GraphStore) (nodes : List NodeId) (column : String) :
    joinNodesByColumn graph t' nodes { schema with indexedColumns := indexed } column =
      joinNodesByColumn graph t nodes schema column := by
  have hcolumn : ({ schema with indexedColumns := indexed } : TableSchema).column column =
      schema.column column := rfl
  cases hcol : schema.column column with
  | none =>
    rw [joinNodesByColumn, joinNodesByColumn, hcolumn, hcol]
    rfl
  | some col =>
    by_cases hkind : col.kind = .int
    · obtain ⟨rows, hscan, -⟩ := scanAllIn_spec hs.rowsKeyed hs.pkDeclared
      have hscan' : t'.scanAllIn { schema with indexedColumns := indexed } = .ok rows := by
        rw [← hscan, scanAllIn, scanAllIn, hrows]
        rfl
      rw [joinNodesByColumn_eq hs hcol hkind hscan]
      exact joinNodesByColumn_eq hs' hcol hkind hscan'
    · rw [joinNodesByColumn, joinNodesByColumn, hcolumn, hcol]
      simp only [Except.ofOption, Except.ok_bind, Except.guardOr, if_neg hkind, Except.error_bind]

/-- Points by their first coordinate, for a node twice and for one no integer column can name. -/
theorem joinNodesByColumn_points : ∃ t : TableStore, t.rows.size = 1 ∧
    joinNodesByColumn {} t [⟨5⟩, ⟨1⟩, ⟨5⟩] (pointsSchema []) "x" =
      joinNodesByColumn {} t [⟨5⟩, ⟨1⟩, ⟨5⟩] (pointsSchema ["x"]) "x" ∧
    joinNodesByColumn {} t [⟨5⟩, ⟨0xFFFFFFFFFFFFFFFF⟩] (pointsSchema []) "x" =
      joinNodesByColumn {} t [⟨5⟩, ⟨0xFFFFFFFFFFFFFFFF⟩] (pointsSchema ["x"]) "x" := by
  obtain ⟨t, hsize, hcons⟩ := exists_points
  have hindexed' := indexed_of_subset hcons.indexed (List.nil_subset _)
  exact ⟨t, hsize, joinNodesByColumn_indexed_eq hcons.indexed hindexed' rfl {} _ "x",
    joinNodesByColumn_indexed_eq hcons.indexed hindexed' rfl {} _ "x"⟩

/-- Points with times for coordinates. -/
private def timesStatic : RelSchema :=
  { pointsStatic with columns := [("id", .int), ("x", .timestamp)] }

private def timedPoint : Properties := (OrdMap.insert ∅ "id" (.int 1)).insert "x" (.timestamp 5)

/-- The number of rows that node 5 is joined with. -/
private def joinedRows (t : TableStore) (schema : TableSchema) : Option (List ℕ) :=
  (joinNodesByColumn {} t [⟨5⟩] schema "x").toOption.map (·.map (·.rows.length))

/-- A time in a column of integers has the key of an integer: node 5 is joined with the row through
the index, and not with it by a scan. -/
theorem not_joinNodesByColumn_adopted : ∃ t₀ t : TableStore,
    @StaticRun Unicode.ascii ℕ _ Ann.flat timesStatic t₀ ∧
    (∃ created, t₀.createTableIn (pointsSchema ["x"]) = .ok (created, t)) ∧
    t.IndexesExact (pointsSchema ["x"]) ∧ t.IndexesExact (pointsSchema []) ∧
    joinNodesByColumn {} t [⟨5⟩] (pointsSchema []) "x" ≠
      joinNodesByColumn {} t [⟨5⟩] (pointsSchema ["x"]) "x" := by
  obtain ⟨t₀, t, hrun, hcreate, hexact, hcheck⟩ := @exists_adopted (pointsSchema ["x"])
    timesStatic timedPoint (fun t ↦ decide (joinedRows t (pointsSchema []) = some [0] ∧
      joinedRows t (pointsSchema ["x"]) = some [1])) rfl (by decide +kernel)
  obtain ⟨hscan, hindex⟩ := of_decide_eq_true hcheck
  refine ⟨t₀, t, hrun, hcreate, hexact, ⟨hexact.pkDeclared, hexact.rowsKeyed, by
    intro c hc
    cases hc⟩, fun heq ↦ ?_⟩
  rw [joinedRows, heq, ← joinedRows, hindex] at hscan
  cases hscan

end Hybrid
