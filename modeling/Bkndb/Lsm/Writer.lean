import Bkndb.Lsm.Quiet
import Bkndb.Lsm.Tx

/-!
# The writer, section by section

A commit, a flush and a compaction are sequences of critical sections, and readers take their
snapshots between any two of them. `WriterPc` says where in an operation the writer is, and
`Lsm.advance` runs the next section. What the layers in memory denote is preserved by every section
except the one that writes a batch to the memtable: a flush and a compaction only move entries from
one layer to another.

## Sections in a row

`remaining_eq` says that running the sections one by one is the operation, so the places between
them are those of the source and not of the model. Compactions that follow a flush are kept as a
list of what is still to be done.

## Layers

The three changes that sections make to the layers are each described by what they do to the map: a
batch goes on top, a memtable becomes a table, and all tables become one. Only the first changes
the map.
-/

open Layers

variable [Lz4] [BloomSizing]

/-- Where the writer is in its operation; with it the compactions that are to follow, each forced or
not. -/
inductive WriterPc where
  | idle
  /-- The record is in the log. -/
  | logged (pending : Pending)
  | flushing (compactions : List Bool)
  | setAside (compactions : List Bool) (memtable : Memtable) (generation : ℕ)
  | written (compactions : List Bool) (generation : ℕ) (handle : SstableHandle)
    (manifest : Manifest)
  | compacting (force : Bool) (compactions : List Bool)
  | picked (compactions : List Bool) (sstables : List SstableHandle)
  | reserved (compactions : List Bool) (sstables : List SstableHandle) (generation : ℕ)
  /-- The new file has the name of the old one. -/
  | renamed (compactions : List Bool) (fresh : Lsm.FreshContainer)
  | durable (compactions : List Bool) (fresh : Lsm.FreshContainer)
  /-- The new file is the container. -/
  | switched (compactions : List Bool) (fresh : Lsm.FreshContainer)

/-- Go on with the compactions. -/
def WriterPc.compactions : List Bool → WriterPc
  | [] => idle
  | force :: rest => compacting force rest

namespace Lsm

/-- The next section of an operation. -/
def advance : WriterPc → Effect LsmSystem BknError WriterPc
  | .idle => return .idle
  | .logged pending => do
    if ← applyPending pending then return .flushing [] else return .idle
  | .flushing rest => do
    match ← beginFlush with
    | none => return .compactions rest
    | some (memtable, generation) => return .setAside rest memtable generation
  | .setAside rest memtable generation => do
    let (handle, manifest) ← writeFlush memtable generation
    return .written rest generation handle manifest
  | .written rest generation handle manifest => do
    if ← publishFlush generation handle manifest then return .compacting false rest
    else return .compactions rest
  | .compacting force rest => do
    match ← pickSstables force with
    | none => return .compactions rest
    | some sstables => return .picked rest sstables
  | .picked rest sstables => do
    let generation ← reserveGeneration
    return .reserved rest sstables generation
  | .reserved rest sstables generation => do
    let s ← Effect.get
    let fresh ← io (writeMerged s.backend.path (writeOptions s.backend.options) sstables generation)
    return .renamed rest fresh
  | .renamed rest fresh => do
    io syncParentDir
    return .durable rest fresh
  | .durable rest fresh => do
    switchContainer fresh
    return .switched rest fresh
  | .switched rest fresh => do
    switchState fresh
    return .compactions rest

/-- The places that a section may lead to. -/
def Next : WriterPc → WriterPc → Prop
  | .idle, next => next = .idle
  | .logged _, next => next = .idle ∨ next = .flushing []
  | .flushing rest, next =>
    next = .compactions rest ∨ ∃ memtable generation, next = .setAside rest memtable generation
  | .setAside rest _ generation, next =>
    ∃ handle manifest, next = .written rest generation handle manifest
  | .written rest _ _ _, next => next = .compactions rest ∨ next = .compacting false rest
  | .compacting _ rest, next =>
    next = .compactions rest ∨ ∃ sstables, next = .picked rest sstables
  | .picked rest sstables, next => ∃ generation, next = .reserved rest sstables generation
  | .reserved rest _ _, next => ∃ fresh, next = .renamed rest fresh
  | .renamed rest fresh, next => next = .durable rest fresh
  | .durable rest fresh, next => next = .switched rest fresh
  | .switched rest _, next => next = .compactions rest

theorem next_of_advance {pc pc' : WriterPc} {s s' : LsmSystem}
    (h : advance pc s = (.ok pc', s')) : Next pc pc' := by
  cases pc with
  | idle =>
    cases h
    rfl
  | logged pending =>
    obtain ⟨due, s₁, -, h⟩ := Effect.bind_eq_ok.mp h
    cases due with
    | true =>
      cases h
      exact .inr rfl
    | false =>
      cases h
      exact .inl rfl
  | flushing rest =>
    obtain ⟨r, s₁, -, h⟩ := Effect.bind_eq_ok.mp h
    cases r with
    | none =>
      cases h
      exact .inl rfl
    | some r =>
      cases h
      exact .inr ⟨_, _, rfl⟩
  | setAside rest memtable generation =>
    obtain ⟨out, s₁, -, h⟩ := Effect.bind_eq_ok.mp h
    cases h
    exact ⟨_, _, rfl⟩
  | written rest generation handle manifest =>
    obtain ⟨due, s₁, -, h⟩ := Effect.bind_eq_ok.mp h
    cases due with
    | true =>
      cases h
      exact .inr rfl
    | false =>
      cases h
      exact .inl rfl
  | compacting force rest =>
    obtain ⟨r, s₁, -, h⟩ := Effect.bind_eq_ok.mp h
    cases r with
    | none =>
      cases h
      exact .inl rfl
    | some sstables =>
      cases h
      exact .inr ⟨_, rfl⟩
  | picked rest sstables =>
    obtain ⟨generation, s₁, -, h⟩ := Effect.bind_eq_ok.mp h
    cases h
    exact ⟨_, rfl⟩
  | reserved rest sstables generation =>
    obtain ⟨_, s₁, -, h⟩ := Effect.bind_eq_ok.mp h
    obtain ⟨fresh, s₂, -, h⟩ := Effect.bind_eq_ok.mp h
    cases h
    exact ⟨_, rfl⟩
  | renamed rest fresh =>
    obtain ⟨_, s₁, -, h⟩ := Effect.bind_eq_ok.mp h
    cases h
    rfl
  | durable rest fresh =>
    obtain ⟨_, s₁, -, h⟩ := Effect.bind_eq_ok.mp h
    cases h
    rfl
  | switched rest fresh =>
    obtain ⟨_, s₁, -, h⟩ := Effect.bind_eq_ok.mp h
    cases h
    rfl

/-- The rest of a merge that has picked its SSTables. -/
def mergeFrom (sstables : List SstableHandle) : Effect LsmSystem BknError Unit := do
  let generation ← reserveGeneration
  let s ← Effect.get
  let fresh ← io (writeMerged s.backend.path (writeOptions s.backend.options) sstables generation)
  io syncParentDir
  switchContainer fresh
  switchState fresh

/-- What is still to be done. -/
def remaining : WriterPc → Effect LsmSystem BknError Unit
  | .idle => return
  | .logged pending => do
    if ← applyPending pending then flush
  | .flushing rest => do
    flush
    rest.forM compactAll
  | .setAside rest memtable generation => do
    let (handle, manifest) ← writeFlush memtable generation
    if ← publishFlush generation handle manifest then compactAll false
    rest.forM compactAll
  | .written rest generation handle manifest => do
    if ← publishFlush generation handle manifest then compactAll false
    rest.forM compactAll
  | .compacting force rest => do
    compactAll force
    rest.forM compactAll
  | .picked rest sstables => do
    mergeFrom sstables
    rest.forM compactAll
  | .reserved rest sstables generation => do
    let s ← Effect.get
    let fresh ← io (writeMerged s.backend.path (writeOptions s.backend.options) sstables generation)
    io syncParentDir
    switchContainer fresh
    switchState fresh
    rest.forM compactAll
  | .renamed rest fresh => do
    io syncParentDir
    switchContainer fresh
    switchState fresh
    rest.forM compactAll
  | .durable rest fresh => do
    switchContainer fresh
    switchState fresh
    rest.forM compactAll
  | .switched rest fresh => do
    switchState fresh
    rest.forM compactAll

theorem remaining_compactions (rest : List Bool) :
    remaining (.compactions rest) = rest.forM compactAll := by
  cases rest <;> rfl

theorem pure_compactions (rest : List Bool) :
    (pure (.compactions rest) >>= remaining : Effect LsmSystem BknError Unit) =
      rest.forM compactAll := by
  rw [pure_bind, remaining_compactions]

/-- **The sections are the operation**: what remains is the next section and what remains then. -/
theorem remaining_eq (pc : WriterPc) : remaining pc = advance pc >>= remaining := by
  cases pc with
  | idle => rfl
  | logged pending =>
    rw [remaining, advance, bind_assoc]
    refine bind_congr fun due ↦ ?_
    cases due with
    | true => exact (bind_pure _).symm
    | false => rfl
  | flushing rest =>
    rw [remaining, advance, flush, bind_assoc, bind_assoc]
    refine bind_congr fun r ↦ ?_
    cases r with
    | none => exact (pure_compactions rest).symm
    | some r =>
      simp only [remaining, bind_assoc, pure_bind]
      refine bind_congr fun _ ↦ bind_congr fun due ↦ ?_
      cases due with
      | true => rfl
      | false => exact pure_bind _ _
  | setAside rest memtable generation => simp only [remaining, advance, bind_assoc, pure_bind]
  | written rest generation handle manifest =>
    rw [remaining, advance, bind_assoc]
    refine bind_congr fun due ↦ ?_
    cases due with
    | true => rfl
    | false => exact (pure_compactions rest).symm
  | compacting force rest =>
    rw [remaining, advance, compactAll, bind_assoc, bind_assoc]
    refine bind_congr fun r ↦ ?_
    cases r with
    | none => exact (pure_compactions rest).symm
    | some sstables => simp only [remaining, mergeFrom, bind_assoc, pure_bind]
  | picked rest sstables => simp only [remaining, advance, mergeFrom, bind_assoc, pure_bind]
  | reserved rest sstables generation => simp only [remaining, advance, bind_assoc, pure_bind]
  | renamed rest fresh => simp only [remaining, advance, bind_assoc, pure_bind]
  | durable rest fresh => simp only [remaining, advance, bind_assoc, pure_bind]
  | switched rest fresh =>
    rw [remaining, advance, bind_assoc]
    exact bind_congr fun _ ↦ (pure_compactions rest).symm

theorem commitPending_eq (pending : Pending) (h : pending.isEmpty = false) :
    commitPending pending = appendRecord pending >>= fun _ ↦ remaining (.logged pending) := by
  rw [commitPending, h]
  rfl

theorem forceCompact_eq : forceCompact = remaining (.flushing [true]) := by
  simp [forceCompact, remaining, List.forM]

/-! ## What the sections do to the layers -/

omit [BloomSizing] in
/-- A batch goes to the memtable on top. -/
theorem SnapshotDenotes.write {snap : ReadSnapshot} {D : OrdMap Bytes Bytes}
    (h : SnapshotDenotes snap D) (pending : Pending) :
    SnapshotDenotes { snap with
      activeMemtable := writeBatch LsmValue.ofOption snap.activeMemtable pending }
      (applyBatch D pending) := by
  obtain ⟨tables, hholds, hdenotes⟩ := h
  exact ⟨tables, hholds, Denotes.writeBatch hdenotes LsmValue.live_ofOption pending⟩

omit [BloomSizing] in
/-- The only memtable that is set aside becomes the newest SSTable. -/
theorem SnapshotDenotes.publish {snap : ReadSnapshot} {D : OrdMap Bytes Bytes}
    (h : SnapshotDenotes snap D) {generation : ℕ} {memtable : Memtable}
    (himm : snap.immutableMemtables = [(generation, memtable)]) {handle : SstableHandle}
    (hholds : handle.Holds memtable.entries) :
    SnapshotDenotes { snap with
      immutableMemtables := []
      sstables := snap.sstables ++ [handle] } D := by
  obtain ⟨tables, htables, hdenotes⟩ := h
  refine ⟨tables ++ [memtable], List.rel_append htables (.cons hholds .nil), ?_⟩
  rw [layers, himm] at hdenotes
  rw [layers, List.reverse_append, List.reverse_singleton, List.singleton_append, List.map_cons]
  exact hdenotes

omit [BloomSizing] in
theorem merged_cursors {sstables : List SstableHandle} {tables : List Memtable}
    (h : List.Forall₂ (fun h t ↦ SstableHandle.Holds h (OrdMap.entries t)) sstables tables) :
    ∃ E : OrdMap Bytes Bytes,
      MergeIter.merged (sstables.reverse.map fun h ↦ h.cursor .unbounded .unbounded) =
        E.entries.map .ok ∧
      Denotes LsmValue.live (tables.reverse.map OrdMap.entries) E := by
  have hall : ∀ l : List SstEntry, l.filter (fun e ↦ inRange .unbounded .unbounded e.1) = l :=
    fun l ↦ List.filter_eq_self.mpr fun e _ ↦ rfl
  have hcursors := cursors_eq (List.rel_reverse h) .unbounded .unbounded
  simp only [hall] at hcursors
  obtain ⟨E, hmerged, hdenotes⟩ := @MergeIter.merged_layers (tables.reverse.map OrdMap.entries) (by
    intro l hl
    obtain ⟨t, -, rfl⟩ := List.mem_map.mp hl
    exact t.sorted)
  exact ⟨E, by rw [hcursors, hmerged], hdenotes⟩

/-- A map as a table without tombstones. -/
def liveTable (E : OrdMap Bytes Bytes) : Memtable where
  entries := E.entries.map fun e ↦ (e.1, .value e.2)
  sorted := List.pairwise_map.mpr E.sorted

omit [Lz4] [BloomSizing] in
theorem map_liveTable (E : OrdMap Bytes Bytes) :
    ((E.entries.map .ok).map fun r : Except BknError (Bytes × Bytes) ↦
      r.map fun e ↦ (e.1, LsmValue.value e.2)) = (liveTable E).entries.map .ok := by
  rw [liveTable, List.map_map, List.map_map]
  rfl

theorem holds_of_writeFreshContainer {path : String} {generation n : ℕ} {E : OrdMap Bytes Bytes}
    {opts : Sst.WriteOptions} {os os' : Os} {fresh : FreshContainer}
    (h : writeFreshContainer path generation (E.entries.map .ok) n opts os = (.ok fresh, os')) :
    fresh.handle.Holds (liveTable E).entries := by
  rw [writeFreshContainer, Effect.onError_eq_ok, Effect.bind_eq_ok] at h
  obtain ⟨i, os₁, -, h⟩ := h
  obtain ⟨_, os₂, -, h⟩ := Effect.bind_eq_ok.mp h
  obtain ⟨handle, os₃, hwrite, h⟩ := Effect.bind_eq_ok.mp h
  obtain ⟨next, os₄, -, h⟩ := Effect.bind_eq_ok.mp h
  obtain ⟨_, os₅, -, h⟩ := Effect.bind_eq_ok.mp h
  obtain ⟨_, os₆, -, h⟩ := Effect.bind_eq_ok.mp h
  obtain ⟨_, os₇, -, h⟩ := Effect.bind_eq_ok.mp h
  obtain ⟨_, os₈, -, h⟩ := Effect.bind_eq_ok.mp h
  cases h
  rw [map_liveTable] at hwrite
  exact Sst.holds_of_write hwrite

/-- The SSTables are replaced by their merge. -/
theorem SnapshotDenotes.merge {snap : ReadSnapshot} {D : OrdMap Bytes Bytes}
    (h : SnapshotDenotes snap D) {path : String} {opts : Sst.WriteOptions} {generation : ℕ}
    {os os' : Os} {fresh : FreshContainer}
    (hwrite : writeMerged path opts snap.sstables generation os = (.ok fresh, os')) :
    SnapshotDenotes { snap with sstables := [fresh.handle] } D := by
  obtain ⟨tables, htables, hdenotes⟩ := h
  obtain ⟨E, hmerged, hlive⟩ := merged_cursors htables
  rw [writeMerged] at hwrite
  obtain ⟨fresh', os₁, hfresh, hwrite⟩ := Effect.bind_eq_ok.mp hwrite
  obtain ⟨_, os₂, -, hwrite⟩ := Effect.bind_eq_ok.mp hwrite
  obtain ⟨_, os₃, -, hwrite⟩ := Effect.bind_eq_ok.mp hwrite
  cases hwrite
  rw [hmerged] at hfresh
  refine ⟨[liveTable E], .cons (holds_of_writeFreshContainer hfresh) .nil, ?_⟩
  exact Denotes.merge hdenotes hlive fun _ ↦ rfl

end Lsm
