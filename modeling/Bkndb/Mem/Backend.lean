import Mathlib.Data.Prod.Lex
import Bkndb.Lsm.Contents

/-!
# The in-memory backend

`bkndb-storage-mem`: a map of tables behind one pointer. A read transaction keeps the pointer, a
write transaction keeps it too and gathers its writes in an overlay, and a commit applies the overlay
to the tables. Tables are shared by pointer in the source and copied when one that is shared is
written to, so a snapshot is the tables at the time it was taken.

A scan within a write transaction rebuilds the range: it collects the entries of the snapshot within
the bounds and writes the overlay's entries for the table into them.

## What sharing means

The tables are values here, so taking a snapshot is keeping a value. That the source does not
change a table behind a snapshot is what its reference counts are for (`Arc::make_mut`), and this
is taken for granted.

## A write within a transaction

A lookup asks the overlay first. A scan collects the entries of the snapshot and writes the
overlay's entries for the table and the bounds into them, so the two ways of reading agree only
because both are the table under the overlay (`MemWriteTx.answers`).
-/

namespace Mem

abbrev Table := OrdMap Bytes Bytes

abbrev Tables := OrdMap String Table

/-- Writes by table and key; a missing value deletes. -/
abbrev Overlay := OrdMap (String ×ₗ Bytes) (Option Bytes)

structure MemoryStorageBackend where
  tables : Tables

structure MemReadTx where
  snapshot : Tables

structure MemWriteTx where
  snapshot : Tables
  pending : Overlay

def beginRead (b : MemoryStorageBackend) : MemReadTx := ⟨b.tables⟩

def beginWrite (b : MemoryStorageBackend) : MemWriteTx := ⟨b.tables, ∅⟩

def snapshotGet (snapshot : Tables) (table : String) (key : Bytes) : Option Bytes :=
  (snapshot.get? table).bind fun t ↦ t.get? key

/-- The same check as over the shared key space. -/
def boundsEmpty (lo hi : Bound Bytes) : Bool := Keys.boundsEmpty lo hi

def snapshotScan (snapshot : Tables) (table : String) (start stop : Bound Bytes) :
    List (Bytes × Bytes) :=
  if boundsEmpty start stop then []
  else
    match snapshot.get? table with
    | some t => t.range start stop
    | none => []

namespace MemReadTx

def get (tx : MemReadTx) (table : String) (key : Bytes) : Except BknError (Option Bytes) :=
  .ok (snapshotGet tx.snapshot table key)

def range (tx : MemReadTx) (table : String) (start stop : Bound Bytes) :
    Except BknError (List (Bytes × Bytes)) := .ok (snapshotScan tx.snapshot table start stop)

def scan (tx : MemReadTx) (table : String) (start stop : Bound Bytes) :
    Except BknError (List (Except BknError (Bytes × Bytes))) :=
  .ok ((snapshotScan tx.snapshot table start stop).map .ok)

end MemReadTx

/-- One write of an overlay, to a table. -/
def writeEntry (t : Table) (key : Bytes) : Option Bytes → Table
  | some v => t.insert key v
  | none => t.erase key

namespace MemWriteTx

def get (tx : MemWriteTx) (table : String) (key : Bytes) : Except BknError (Option Bytes) :=
  match tx.pending.get? (toLex (table, key)) with
  | some overlay => .ok overlay
  | none => .ok (snapshotGet tx.snapshot table key)

/-- The entries of the snapshot within the bounds, and the overlay's entries for the table written
into them. -/
def range (tx : MemWriteTx) (table : String) (start stop : Bound Bytes) :
    Except BknError (List (Bytes × Bytes)) :=
  let merged := (∅ : Table).insertAll (snapshotScan tx.snapshot table start stop)
  let merged := tx.pending.entries.foldl
    (fun merged e ↦
      if (ofLex e.1).1 ≠ table ∨ ¬(start.Above (ofLex e.1).2 ∧ stop.Below (ofLex e.1).2) then merged
      else writeEntry merged (ofLex e.1).2 e.2) merged
  .ok merged.entries

/-- The trait's own: the range, entry by entry. -/
def scan (tx : MemWriteTx) (table : String) (start stop : Bound Bytes) :
    Except BknError (List (Except BknError (Bytes × Bytes))) := do
  return (← tx.range table start stop).map .ok

def put (tx : MemWriteTx) (table : String) (key value : Bytes) : Except BknError MemWriteTx :=
  .ok { tx with pending := tx.pending.insert (toLex (table, key)) (some value) }

def delete (tx : MemWriteTx) (table : String) (key : Bytes) : Except BknError MemWriteTx :=
  .ok { tx with pending := tx.pending.insert (toLex (table, key)) none }

/-- Apply the overlay to the tables of the backend. -/
def commit (tx : MemWriteTx) (b : MemoryStorageBackend) : Except BknError MemoryStorageBackend :=
  if tx.pending.isEmpty then .ok b
  else .ok ⟨tx.pending.entries.foldl
    (fun tables e ↦ tables.insert (ofLex e.1).1
      (writeEntry ((tables.get? (ofLex e.1).1).getD ∅) (ofLex e.1).2 e.2)) b.tables⟩

end MemWriteTx

/-! ## What the tables and an overlay stand for -/

/-- The tables hold the contents; a table that is not there is empty. -/
def Holds (tables : Tables) (M : Contents) : Prop := ∀ table, (tables.get? table).getD ∅ = M table

/-- The tables under an overlay hold the contents. -/
def Overlaid (tables : Tables) (pending : Overlay) (M : Contents) : Prop :=
  ∀ table key, (M table).get? key =
    (pending.get? (toLex (table, key))).getD (((tables.get? table).getD ∅).get? key)

theorem holds_empty : Holds ∅ fun _ ↦ ∅ := fun _ ↦ rfl

theorem snapshotGet_eq {tables : Tables} {M : Contents} (h : Holds tables M) (table : String)
    (key : Bytes) : snapshotGet tables table key = (M table).get? key := by
  rw [snapshotGet, ← h table]
  cases tables.get? table <;> rfl

theorem snapshotScan_eq (tables : Tables) (table : String) (start stop : Bound Bytes) :
    snapshotScan tables table start stop = ((tables.get? table).getD ∅).range start stop := by
  rw [snapshotScan, boundsEmpty]
  cases hempty : Keys.boundsEmpty start stop with
  | true =>
    rw [if_pos rfl]
    refine (List.eq_nil_iff_forall_not_mem.mpr fun ⟨k, v⟩ hmem ↦ ?_).symm
    exact Keys.boundsEmpty_iff hempty k (OrdMap.mem_range.mp hmem).2
  | false =>
    rw [if_neg Bool.false_ne_true]
    cases tables.get? table <;> rfl

/-- **A read transaction answers from the contents that its snapshot holds.** -/
theorem MemReadTx.answers {tx : MemReadTx} {M : Contents} (h : Holds tx.snapshot M) :
    M.Answers tx.get tx.scan tx.range where
  get_eq table _ key := congrArg Except.ok (snapshotGet_eq h table key)
  scan_eq table _ start stop := by rw [scan, snapshotScan_eq, h table]
  range_eq table _ start stop := by rw [range, snapshotScan_eq, h table]

/-! ## The overlay

Writes are kept by table and key, so the order in which the overlay is applied does not matter:
each key is written at most once. -/

theorem get?_writeEntry_self (t : Table) (key : Bytes) (o : Option Bytes) :
    (writeEntry t key o).get? key = o := by
  cases o with
  | none => exact OrdMap.get?_erase_self ..
  | some v => exact OrdMap.get?_insert_self ..

theorem get?_writeEntry_of_ne (t : Table) {key k : Bytes} (o : Option Bytes) (h : k ≠ key) :
    (writeEntry t key o).get? k = t.get? k := by
  cases o with
  | none => exact OrdMap.get?_erase_of_ne t h
  | some v => exact OrdMap.get?_insert_of_ne t v h

/-- The entries of an overlay that pass a filter, written into a table: of a key that passes, what
the overlay says, and of any other what the table says. -/
theorem get?_foldl_writeEntry {l : List ((String ×ₗ Bytes) × Option Bytes)}
    (h : Layers.Ascending l) (table : String) (skip : Bytes → Prop) [DecidablePred skip]
    (merged : Table) (k : Bytes) :
    (l.foldl (fun merged e ↦
      if (ofLex e.1).1 ≠ table ∨ skip (ofLex e.1).2 then merged
      else writeEntry merged (ofLex e.1).2 e.2) merged).get? k =
    if skip k then merged.get? k else (Layers.find l (toLex (table, k))).getD (merged.get? k) := by
  induction l generalizing merged with
  | nil => simp
  | cons e l ih =>
    obtain ⟨hhead, htail⟩ := List.pairwise_cons.mp h
    rw [List.foldl_cons, ih htail, Layers.find_cons]
    by_cases hk : e.1 = toLex (table, k)
    · -- the overlay has one entry for the key
      have hrest : Layers.find l (toLex (table, k)) = none :=
        Layers.find_eq_none fun e' he' ↦ hk ▸ (hhead e' he').ne'
      rw [if_pos hk, hrest, Option.getD_none, Option.getD_some, hk]
      by_cases hskip : skip k
      · simp [hskip]
      · simp [hskip, get?_writeEntry_self]
    · rw [if_neg hk]
      by_cases hother : (ofLex e.1).1 ≠ table ∨ skip (ofLex e.1).2
      · rw [if_pos hother]
      · rw [if_neg hother]
        have hne : k ≠ (ofLex e.1).2 := by
          rintro rfl
          push Not at hother
          exact hk (by rw [← hother.1]; rfl)
        rw [get?_writeEntry_of_ne _ _ hne]

/-- The overlay's writes, applied to the tables: each table gets its own. -/
theorem get?_foldl_commit {l : List ((String ×ₗ Bytes) × Option Bytes)} (h : Layers.Ascending l)
    (tables : Tables) (table : String) (k : Bytes) :
    (((l.foldl (fun tables e ↦ tables.insert (ofLex e.1).1
      (writeEntry ((tables.get? (ofLex e.1).1).getD ∅) (ofLex e.1).2 e.2)) tables).get? table).getD
        ∅).get? k =
    (Layers.find l (toLex (table, k))).getD (((tables.get? table).getD ∅).get? k) := by
  induction l generalizing tables with
  | nil => rfl
  | cons e l ih =>
    obtain ⟨hhead, htail⟩ := List.pairwise_cons.mp h
    rw [List.foldl_cons, ih htail, Layers.find_cons]
    by_cases hk : e.1 = toLex (table, k)
    · have hrest : Layers.find l (toLex (table, k)) = none :=
        Layers.find_eq_none fun e' he' ↦ hk ▸ (hhead e' he').ne'
      rw [if_pos hk, hrest, Option.getD_none, Option.getD_some, hk]
      simp [get?_writeEntry_self]
    · rw [if_neg hk]
      congr 1
      by_cases htable : (ofLex e.1).1 = table
      · have hne : k ≠ (ofLex e.1).2 := by
          rintro rfl
          exact hk (by rw [← htable]; rfl)
        rw [htable, OrdMap.get?_insert_self, Option.getD_some, get?_writeEntry_of_ne _ _ hne]
      · rw [OrdMap.get?_insert_of_ne _ _ (Ne.symm htable)]

/-- **A write transaction answers from the contents under its overlay.** -/
theorem MemWriteTx.answers {tx : MemWriteTx} {M : Contents}
    (h : Overlaid tx.snapshot tx.pending M) : M.Answers tx.get tx.scan tx.range := by
  have hget : ∀ table key, tx.get table key = .ok ((M table).get? key) := fun table key ↦ by
    rw [get, h table key, snapshotGet]
    cases tx.pending.get? (toLex (table, key)) with
    | some overlay => rfl
    | none =>
      dsimp only
      rw [Option.getD_none]
      cases tx.snapshot.get? table <;> rfl
  have hrange : ∀ table start stop, tx.range table start stop = .ok ((M table).range start stop) :=
      fun table start stop ↦ by
    rw [range]
    refine congrArg Except.ok (OrdMap.eq_range (OrdMap.sorted _) fun k v ↦ ?_)
    rw [OrdMap.mem_entries, get?_foldl_writeEntry tx.pending.sorted table
      (fun k ↦ ¬(start.Above k ∧ stop.Below k)), snapshotScan_eq, Layers.find_entries,
      h table k]
    have hscan : ∀ v, ((∅ : Table).insertAll
        (((tx.snapshot.get? table).getD ∅).range start stop)).get? k = some v ↔
          ((tx.snapshot.get? table).getD ∅).get? k = some v ∧ start.Above k ∧ stop.Below k :=
        fun v ↦ by
      rw [OrdMap.get?_insertAll, OrdMap.mem_range]
      · simp
      · exact (List.pairwise_map.mpr ((OrdMap.range_sorted _ _ _).imp ne_of_lt))
    by_cases hin : start.Above k ∧ stop.Below k
    · rw [if_neg (not_not.mpr hin)]
      cases tx.pending.get? (toLex (table, k)) with
      | some overlay => simp [hin]
      | none =>
        rw [Option.getD_none, Option.getD_none, hscan]
    · rw [if_pos hin, hscan]
      simp [hin]
  refine ⟨fun table _ key ↦ hget table key, fun table _ start stop ↦ ?_,
    fun table _ start stop ↦ hrange table start stop⟩
  rw [scan, hrange]
  rfl

theorem overlaid_beginWrite {b : MemoryStorageBackend} {M : Contents} (h : Holds b.tables M) :
    Overlaid (beginWrite b).snapshot (beginWrite b).pending M := fun table key ↦ by
  rw [← h table]
  rfl

theorem Overlaid.write {tables : Tables} {pending : Overlay} {M : Contents}
    (h : Overlaid tables pending M) (table : String) (key : Bytes) (o : Option Bytes) :
    Overlaid tables (pending.insert (toLex (table, key)) o)
      (Function.update M table (writeEntry (M table) key o)) := by
  intro t k
  by_cases ht : t = table
  · subst ht
    rw [Function.update_self]
    by_cases hk : k = key
    · rw [hk, get?_writeEntry_self, OrdMap.get?_insert_self, Option.getD_some]
    · rw [get?_writeEntry_of_ne _ _ hk, OrdMap.get?_insert_of_ne _ _ (by simpa using hk), h t k]
  · rw [Function.update_of_ne ht, OrdMap.get?_insert_of_ne _ _ (by simp [ht]), h t k]

/-- A commit leaves the contents that the transaction saw. -/
theorem holds_commit {tx : MemWriteTx} {b b' : MemoryStorageBackend} {M : Contents}
    (h : Overlaid tx.snapshot tx.pending M) (hsnap : tx.snapshot = b.tables)
    (hcommit : tx.commit b = .ok b') : Holds b'.tables M := by
  intro table
  refine OrdMap.ext fun k ↦ ?_
  rw [MemWriteTx.commit] at hcommit
  rw [h table k, hsnap]
  split at hcommit
  next hempty =>
    obtain rfl := Except.ok.inj hcommit
    rw [OrdMap.isEmpty_iff.mp hempty]
    rfl
  next =>
    obtain rfl := Except.ok.inj hcommit
    exact get?_foldl_commit tx.pending.sorted b.tables table k

end Mem
