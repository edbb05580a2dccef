import Bkndb.Lsm.Engine
import Bkndb.Lsm.Keys

/-!
# Transactions

`engine/tx.rs`: reads go through a snapshot, layer by layer from the newest, a write transaction
putting its own writes on top. If the layers of a snapshot denote a map, a read transaction answers
from that map, and a write transaction from the map after its writes.

## Layers

A snapshot shares the layers with the engine: the pending writes of the transaction, the active
memtable, the memtables that are set aside, and the SSTables, newest first. `SnapshotDenotes` says
that they make up a map, and it is all that a reader needs: lookups and scans are compared with the
map, and the layers are not mentioned after that.

## Scans

A scan merges the layers within bounds on shared keys and strips the prefix. Its own writes are one
more source, in front. An error of a source ends the scan.
-/

/-- The layers at one point in time. -/
structure ReadSnapshot where
  activeMemtable : Memtable
  immutableMemtables : List (ℕ × Memtable)
  sstables : List SstableHandle

namespace Lsm

variable [Lz4]

def snapshot (b : LsmStorageBackend) : ReadSnapshot :=
  ⟨b.state.activeMemtable, b.state.immutableMemtables, b.state.sstables⟩

/-- Search SSTables, newest first. -/
def lookupSstables (key : Bytes) : List SstableHandle → Except BknError (Option Bytes)
  | [] => .ok none
  | h :: hs => do
    match ← h.get key with
    | some v => return v.live
    | none => lookupSstables key hs

/-- Point lookup, newest layer first. -/
def lookup (snap : ReadSnapshot) (pending : Option Pending) (key : Bytes) :
    Except BknError (Option Bytes) :=
  match pending.bind fun p ↦ p.get? key with
  | some entry => .ok entry
  | none =>
    match snap.activeMemtable.get? key with
    | some v => .ok v.live
    | none =>
      match snap.immutableMemtables.reverse.findSome? fun m ↦ m.2.get? key with
      | some v => .ok v.live
      | none => lookupSstables key snap.sstables.reverse

/-- The sources of a scan, newest first. -/
def scanSources (snap : ReadSnapshot) (pending : Option Pending) (lo hi : Bound Bytes) :
    List (List (Except BknError SstEntry)) :=
  if Keys.boundsEmpty lo hi then []
  else
    (pending.toList.map fun p ↦ (p.range lo hi).map fun e ↦ .ok (e.1, LsmValue.ofOption e.2)) ++
      ((snap.activeMemtable :: snap.immutableMemtables.reverse.map Prod.snd).map fun m ↦
        (m.range lo hi).map .ok) ++
      snap.sstables.reverse.map fun h ↦ h.cursor lo hi

/-- A scan of one table, the prefix stripped off again. -/
def scanTable (snap : ReadSnapshot) (pending : Option Pending) (table : String)
    (start stop : Bound Bytes) : Except BknError (List (Except BknError (Bytes × Bytes))) := do
  let pre ← Keys.tablePrefix table
  let bounds := Keys.tableScanBounds pre start stop
  return (MergeIter.merged (scanSources snap pending bounds.1 bounds.2)).map fun r ↦
    r.map fun e ↦ (e.1.drop pre.length, e.2)

/-- All entries of a stream, or its first error. -/
def collect : List (Except BknError (Bytes × Bytes)) → Except BknError (List (Bytes × Bytes))
  | [] => .ok []
  | r :: rs => do return (← r) :: (← collect rs)

/-! ## Transactions -/

structure ReadTx where
  snapshot : ReadSnapshot

structure WriteTx where
  snapshot : ReadSnapshot
  pending : Pending

def beginRead (b : LsmStorageBackend) : ReadTx := ⟨snapshot b⟩

def beginWrite (b : LsmStorageBackend) : WriteTx := ⟨snapshot b, ∅⟩

namespace ReadTx

def get (tx : ReadTx) (table : String) (key : Bytes) : Except BknError (Option Bytes) := do
  lookup tx.snapshot none (← Keys.encodeKey table key)

def scan (tx : ReadTx) (table : String) (start stop : Bound Bytes) :
    Except BknError (List (Except BknError (Bytes × Bytes))) := scanTable tx.snapshot none table start stop

def range (tx : ReadTx) (table : String) (start stop : Bound Bytes) :
    Except BknError (List (Bytes × Bytes)) := do
  collect (← tx.scan table start stop)

end ReadTx

namespace WriteTx

def get (tx : WriteTx) (table : String) (key : Bytes) : Except BknError (Option Bytes) := do
  lookup tx.snapshot (some tx.pending) (← Keys.encodeKey table key)

def scan (tx : WriteTx) (table : String) (start stop : Bound Bytes) :
    Except BknError (List (Except BknError (Bytes × Bytes))) :=
  scanTable tx.snapshot (some tx.pending) table start stop

def range (tx : WriteTx) (table : String) (start stop : Bound Bytes) :
    Except BknError (List (Bytes × Bytes)) := do
  collect (← tx.scan table start stop)

def put (tx : WriteTx) (table : String) (key value : Bytes) : Except BknError WriteTx := do
  return { tx with pending := tx.pending.insert (← Keys.encodeKey table key) (some value) }

def delete (tx : WriteTx) (table : String) (key : Bytes) : Except BknError WriteTx := do
  return { tx with pending := tx.pending.insert (← Keys.encodeKey table key) none }

omit [Lz4] in
theorem put_eq_ok {tx tx' : WriteTx} {table : String} {key value : Bytes}
    (h : tx.put table key value = .ok tx') : Keys.Named table ∧ tx' = { tx with
      pending := tx.pending.insert (Keys.prefixBytes table ++ key) (some value) } := by
  obtain ⟨k, hk, h⟩ := Except.bind_eq_ok.mp h
  obtain ⟨hname, rfl⟩ := Keys.encodeKey_eq_ok hk
  exact ⟨hname, (Except.ok.inj h).symm⟩

omit [Lz4] in
theorem delete_eq_ok {tx tx' : WriteTx} {table : String} {key : Bytes}
    (h : tx.delete table key = .ok tx') : Keys.Named table ∧ tx' = { tx with
      pending := tx.pending.insert (Keys.prefixBytes table ++ key) none } := by
  obtain ⟨k, hk, h⟩ := Except.bind_eq_ok.mp h
  obtain ⟨hname, rfl⟩ := Keys.encodeKey_eq_ok hk
  exact ⟨hname, (Except.ok.inj h).symm⟩

variable [BloomSizing]

def commit (tx : WriteTx) : Effect LsmSystem BknError Unit := commitPending tx.pending

end WriteTx

/-! ## What a snapshot denotes -/

/-- The layers of a snapshot over tables, newest first. -/
def layers (snap : ReadSnapshot) (tables : List Memtable) : List (List SstEntry) :=
  snap.activeMemtable.entries ::
    (snap.immutableMemtables.reverse.map fun m ↦ m.2.entries) ++ tables.reverse.map OrdMap.entries

/-- **The layers of a snapshot denote a map.** -/
def SnapshotDenotes (snap : ReadSnapshot) (D : OrdMap Bytes Bytes) : Prop :=
  ∃ tables : List Memtable,
    List.Forall₂ (fun h t ↦ SstableHandle.Holds h (OrdMap.entries t)) snap.sstables tables ∧
      Layers.Denotes LsmValue.live (layers snap tables) D

/-- The map as a transaction with pending writes sees it. -/
def overlaid (D : OrdMap Bytes Bytes) : Option Pending → OrdMap Bytes Bytes
  | none => D
  | some p => Layers.applyBatch D p

theorem lookupSstables_eq {hs : List SstableHandle} {tables : List Memtable}
    (h : List.Forall₂ (fun h t ↦ SstableHandle.Holds h (OrdMap.entries t)) hs tables) (key : Bytes) :
    lookupSstables key hs = .ok ((Layers.lookup (tables.map OrdMap.entries) key).bind LsmValue.live) := by
  induction h with
  | nil => rfl
  | @cons h t hs tables hh _ ih =>
    rw [lookupSstables, hh.get, Except.ok_bind, List.map_cons, Layers.lookup_cons]
    cases Layers.find t.entries key with
    | none => exact ih
    | some v => rfl

omit [Lz4] in
theorem findSome_immutables (l : List (ℕ × Memtable)) (key : Bytes) :
    (l.findSome? fun m ↦ m.2.get? key) = Layers.lookup (l.map fun m ↦ m.2.entries) key := by
  induction l with
  | nil => rfl
  | cons m l ih =>
    rw [List.findSome?_cons, List.map_cons, Layers.lookup_cons, Layers.find_entries, ← ih]
    cases m.2.get? key <;> rfl

/-- **Point lookup** answers from the map. -/
theorem lookup_eq {snap : ReadSnapshot} {D : OrdMap Bytes Bytes} (h : SnapshotDenotes snap D)
    (pending : Option Pending) (key : Bytes) :
    lookup snap pending key = .ok ((overlaid D pending).get? key) := by
  obtain ⟨tables, hholds, hdenotes⟩ := h
  have hbase : lookup snap none key = .ok (D.get? key) := by
    rw [lookup, hdenotes key, layers, List.cons_append, Layers.lookup_cons, Layers.find_entries,
      Layers.lookup_append, Option.bind_none]
    dsimp only
    rw [findSome_immutables]
    cases snap.activeMemtable.get? key with
    | some v => rfl
    | none =>
      dsimp only
      rw [Option.none_or, List.map_reverse]
      cases Layers.lookup (snap.immutableMemtables.map fun m ↦ m.2.entries).reverse key with
      | some v => rfl
      | none =>
        dsimp only
        rw [lookupSstables_eq (List.rel_reverse hholds), Option.none_or]
  cases pending with
  | none => exact hbase
  | some p =>
    rw [overlaid, Layers.get?_applyBatch]
    cases hp : p.get? key with
    | some entry =>
      rw [lookup, Option.bind_some, hp]
      rfl
    | none =>
      rw [Option.getD_none, ← hbase, lookup, lookup, Option.bind_some, hp]
      rfl

/-! ## Scans

The part of a layer within the bounds is a layer of the part of the map within the bounds, so the
merge of the parts is that part. -/

/-- The keys within two bounds. -/
def inRange (lo hi : Bound Bytes) (k : Bytes) : Bool := decide (lo.Above k ∧ hi.Below k)

/-- What a transaction's own writes are as a layer. -/
def pendingLayer (p : Pending) : List SstEntry := p.entries.map fun e ↦ (e.1, LsmValue.ofOption e.2)

omit [Lz4] in
theorem ascending_pendingLayer (p : Pending) : Layers.Ascending (pendingLayer p) :=
  List.pairwise_map.mpr p.sorted

omit [Lz4] in
theorem pendingLayer_range (p : Pending) (lo hi : Bound Bytes) :
    ((p.range lo hi).map fun e ↦ (.ok (e.1, LsmValue.ofOption e.2) : Except BknError SstEntry)) =
      ((pendingLayer p).filter fun e ↦ inRange lo hi e.1).map .ok := by
  rw [pendingLayer, List.filter_map, List.map_map]
  rfl

theorem cursor_eq {h : SstableHandle} {t : Memtable} (hh : h.Holds t.entries) (lo hi : Bound Bytes) :
    h.cursor lo hi = (t.entries.filter fun e ↦ inRange lo hi e.1).map .ok := by
  rw [hh.cursor]
  congr 2
  ext e
  rw [← Bool.coe_iff_coe, SstableHandle.within_iff, inRange, decide_eq_true_iff]

theorem cursors_eq {hs : List SstableHandle} {tables : List Memtable}
    (h : List.Forall₂ (fun h t ↦ SstableHandle.Holds h (OrdMap.entries t)) hs tables)
    (lo hi : Bound Bytes) :
    hs.map (fun h ↦ h.cursor lo hi) =
      (tables.map OrdMap.entries).map fun l ↦ (l.filter fun e ↦ inRange lo hi e.1).map .ok := by
  induction h with
  | nil => rfl
  | cons hh _ ih => rw [List.map_cons, List.map_cons, List.map_cons, ih, cursor_eq hh]

theorem scanSources_eq {snap : ReadSnapshot} {tables : List Memtable}
    (h : List.Forall₂ (fun h t ↦ SstableHandle.Holds h (OrdMap.entries t)) snap.sstables tables)
    (pending : Option Pending) {lo hi : Bound Bytes} (hne : Keys.boundsEmpty lo hi = false) :
    scanSources snap pending lo hi = (pending.toList.map pendingLayer ++ layers snap tables).map
      fun l ↦ (l.filter fun e ↦ inRange lo hi e.1).map .ok := by
  rw [scanSources, hne, if_neg Bool.false_ne_true, cursors_eq (List.rel_reverse h), layers]
  simp only [List.map_append, List.map_map, List.append_assoc, List.map_cons, List.cons_append,
    List.map_reverse]
  congr 1
  · exact List.map_congr_left fun p _ ↦ pendingLayer_range p lo hi

/-- **A merged scan** yields the entries of the map within the bounds. -/
theorem merged_scanSources {snap : ReadSnapshot} {D : OrdMap Bytes Bytes} (h : SnapshotDenotes snap D)
    (pending : Option Pending) (lo hi : Bound Bytes) :
    MergeIter.merged (scanSources snap pending lo hi) =
      ((overlaid D pending).range lo hi).map .ok := by
  obtain ⟨tables, hholds, hdenotes⟩ := h
  cases hempty : Keys.boundsEmpty lo hi with
  | true =>
    have hnil : (overlaid D pending).range lo hi = [] :=
      List.eq_nil_iff_forall_not_mem.mpr fun ⟨k, v⟩ hmem ↦
        Keys.boundsEmpty_iff hempty k (OrdMap.mem_range.mp hmem).2
    rw [scanSources, hempty, if_pos rfl, hnil]
    rfl
  | false =>
    have hover : Layers.Denotes LsmValue.live (pending.toList.map pendingLayer ++ layers snap tables)
        (overlaid D pending) := by
      cases pending with
      | none => exact hdenotes
      | some p => exact hdenotes.overlay LsmValue.live_ofOption p
    have hasc : ∀ l ∈ pending.toList.map pendingLayer ++ layers snap tables, Layers.Ascending l := by
      intro l hl
      rcases List.mem_append.mp hl with hl | hl
      · obtain ⟨p, -, rfl⟩ := List.mem_map.mp hl
        exact ascending_pendingLayer p
      · rw [layers] at hl
        rcases List.mem_append.mp hl with hl | hl
        · rcases List.mem_cons.mp hl with rfl | hl
          · exact snap.activeMemtable.sorted
          · obtain ⟨m, -, rfl⟩ := List.mem_map.mp hl
            exact m.2.sorted
        · obtain ⟨t, -, rfl⟩ := List.mem_map.mp hl
          exact t.sorted
    have hmap : ∀ ls : List (List SstEntry),
        (ls.map fun l ↦ (l.filter fun e ↦ inRange lo hi e.1).map .ok) =
          (ls.map fun l ↦ l.filter fun e ↦ inRange lo hi e.1).map fun l ↦
            l.map (.ok : SstEntry → Except BknError SstEntry) := by
      intro ls
      rw [List.map_map]
      rfl
    rw [scanSources_eq hholds pending hempty, hmap, MergeIter.merged_eq_range]
    · intro l hl
      obtain ⟨l', hl', rfl⟩ := List.mem_map.mp hl
      exact (hasc l' hl').filter _
    · intro k v
      rw [Layers.lookup_filter_key, hover k]
      by_cases hk : inRange lo hi k = true
      · have hin : lo.Above k ∧ hi.Below k := of_decide_eq_true hk
        rw [if_pos hk]
        cases Layers.lookup (pending.toList.map pendingLayer ++ layers snap tables) k with
        | none => simp
        | some x => cases x <;> simp [LsmValue.live, hin]
      · rw [if_neg hk]
        have hout : ¬(lo.Above k ∧ hi.Below k) := fun h ↦ hk (decide_eq_true h)
        simp [hout]

omit [Lz4] in
theorem collect_map_ok (l : List (Bytes × Bytes)) : collect (l.map .ok) = .ok l := by
  induction l with
  | nil => rfl
  | cons e l ih => rw [List.map_cons, collect, ih]; rfl

/-- **A scan of a table** yields the entries of the table within the bounds. -/
theorem scanTable_eq {snap : ReadSnapshot} {D T : OrdMap Bytes Bytes} (h : SnapshotDenotes snap D)
    {pending : Option Pending} {table : String} (hname : Keys.Named table)
    (htable : Keys.IsTable (overlaid D pending) (Keys.prefixBytes table) T) (start stop : Bound Bytes) :
    scanTable snap pending table start stop = .ok ((T.range start stop).map .ok) := by
  rw [scanTable, Keys.tablePrefix_of_named hname, Except.ok_bind]
  dsimp only
  rw [merged_scanSources h, List.map_map, ← htable.range start stop, List.map_map]
  rfl

/-! ## What a transaction reads -/

/-- The calls answer from a map of the shared key space: a lookup gives what the table holds, and a
scan the entries of the table within the bounds, in order. -/
structure AnswersFrom (D : OrdMap Bytes Bytes)
    (get : String → Bytes → Except BknError (Option Bytes))
    (scan : String → Bound Bytes → Bound Bytes →
      Except BknError (List (Except BknError (Bytes × Bytes))))
    (range : String → Bound Bytes → Bound Bytes → Except BknError (List (Bytes × Bytes))) :
    Prop where
  get_eq : ∀ table, Keys.Named table → ∀ key,
    get table key = .ok ((Keys.tableOf D (Keys.prefixBytes table)).get? key)
  scan_eq : ∀ table, Keys.Named table → ∀ start stop,
    scan table start stop = .ok (((Keys.tableOf D (Keys.prefixBytes table)).range start stop).map .ok)
  range_eq : ∀ table, Keys.Named table → ∀ start stop,
    range table start stop = .ok ((Keys.tableOf D (Keys.prefixBytes table)).range start stop)

theorem answersFrom_of_denotes {snap : ReadSnapshot} {D : OrdMap Bytes Bytes}
    (h : SnapshotDenotes snap D) (pending : Option Pending) :
    AnswersFrom (overlaid D pending)
      (fun table key ↦ do lookup snap pending (← Keys.encodeKey table key))
      (scanTable snap pending)
      (fun table start stop ↦ do collect (← scanTable snap pending table start stop)) where
  get_eq table hname key := by
    rw [Keys.encodeKey_of_named hname, Except.ok_bind, lookup_eq h, Keys.isTable_tableOf]
  scan_eq table hname start stop := scanTable_eq h hname (Keys.isTable_tableOf _ _) start stop
  range_eq table hname start stop := by
    rw [scanTable_eq h hname (Keys.isTable_tableOf _ _), Except.ok_bind, collect_map_ok]

/-- A read transaction answers from a map. -/
def ReadTx.Reads (tx : ReadTx) (D : OrdMap Bytes Bytes) : Prop :=
  AnswersFrom D tx.get tx.scan tx.range

/-- A write transaction answers from a map. -/
def WriteTx.Reads (tx : WriteTx) (D : OrdMap Bytes Bytes) : Prop :=
  AnswersFrom D tx.get tx.scan tx.range

/-- **A read transaction answers from the map that its snapshot denotes.** -/
theorem ReadTx.reads {tx : ReadTx} {D : OrdMap Bytes Bytes} (h : SnapshotDenotes tx.snapshot D) :
    tx.Reads D := answersFrom_of_denotes h none

/-- **A write transaction answers from that map with its own writes on top.** -/
theorem WriteTx.reads {tx : WriteTx} {D : OrdMap Bytes Bytes} (h : SnapshotDenotes tx.snapshot D) :
    tx.Reads (Layers.applyBatch D tx.pending) := answersFrom_of_denotes h (some tx.pending)

end Lsm
