import Bkndb.Lsm.Compaction
import Bkndb.Lsm.Container
import Bkndb.Lsm.Manifest

/-!
# The engine

`engine/mod.rs` and `engine/write.rs`: opening a container, committing, flushing the memtable to an
SSTable and merging all SSTables into a new file. A commit goes through several critical sections;
each is a definition of its own here, so that what runs between two of them can be told.

A memtable that is being flushed is shared by pointer in the source. Here it carries the generation
it is flushed as, which no two of them have in common.

## Critical sections

A method of the source takes a lock, changes the state or the container, and releases the lock; it
may do this several times. What lies between taking and releasing is one section here, named after
what it does. `flush`, `compactAll` and `commitPending` are the sections in a row; the module on
the writer runs them one at a time.

## State and files

`LsmSystem` has the engine's state, its container and the files. A section that fails leaves behind
what it had done up to the failing call, in all three. Errors carry no state: what an operation has
changed before it failed is in the system.

## Opening

A file that is too short to have a header is made a database first: the manifest is written and
made durable, and then the header of the first slot. Anything else is read: header, manifest,
tables, log.
-/

structure LsmOptions where
  /-- Flush the memtable once it holds this many bytes. -/
  memtableFlushBytes : ℕ
  /-- Merge the SSTables once there are this many. -/
  compactionTriggerFiles : ℕ
  blockSizeBytes : ℕ
  compression : Bool

structure EngineState where
  activeMemtable : Memtable
  immutableMemtables : List (ℕ × Memtable)
  /-- Ascending by generation. -/
  sstables : List SstableHandle
  nextSstableId : ℕ
  /-- Where the active log begins. -/
  walRegionStart : ℕ
  manifestLen : ℕ

/-- The container file and what is needed to write its next header. -/
structure ContainerWriter where
  file : ℕ
  headerSeq : ℕ
  headerSlot : ℕ

structure LsmStorageBackend where
  path : String
  options : LsmOptions
  state : EngineState
  container : ContainerWriter

/-- The engine and the files under it. -/
structure LsmSystem where
  os : Os
  backend : LsmStorageBackend

/-- A batch of writes, by shared key; a missing value deletes. -/
abbrev Pending := Layers.Batch Bytes Bytes

namespace Container

/-- Write bytes at an offset. -/
def writeBlobAt (i offset : ℕ) (bytes : Bytes) : Effect Os BknError Unit := do
  Os.call ioErr
  Os.writeAll ioErr i offset bytes

/-- Write the next header, into the slot that is not current, and wait until it is durable. -/
def writeHeader (i prevSeq prevSlot manifestOffset : ℕ) (manifest : Bytes) :
    Effect Os BknError (ℕ × ℕ) := do
  let w ← Effect.ofExcept (nextHeader prevSeq prevSlot manifestOffset manifest)
  Os.call ioErr
  Os.writeAll ioErr i w.offset w.bytes
  Os.sync ioErr i
  return (w.seq, w.slot)

end Container

namespace Lsm

variable [Lz4] [BloomSizing]

/-- Where an SSTable lies. -/
def sstableRef (h : SstableHandle) : SstableRef := ⟨h.generation, h.baseOffset, h.blobLen⟩

def writeOptions (options : LsmOptions) : Sst.WriteOptions :=
  ⟨options.blockSizeBytes, options.compression⟩

/-- A manifest that knows where it ends: the log begins right behind it. -/
def placeManifest (nextSstableId : ℕ) (refs : List SstableRef) (manifestOffset : ℕ) : Manifest :=
  let placeholder : Manifest := ⟨nextSstableId, refs, 0⟩
  { placeholder with walRegionStart := manifestOffset + placeholder.encode.length }

/-! ## Fresh containers -/

/-- A complete container file with one SSTable. -/
structure FreshContainer where
  file : ℕ
  handle : SstableHandle
  manifest : Manifest
  manifestLen : ℕ

/-- Write live entries into a new file as a complete database. On an error the file is removed. -/
def writeFreshContainer (path : String) (generation : ℕ)
    (entries : List (Except BknError (Bytes × Bytes))) (expectedItems : ℕ)
    (opts : Sst.WriteOptions) : Effect Os BknError FreshContainer :=
  Effect.onError (do
    let i ← Os.createFile ioErr path
    Os.setLen ioErr i Container.bodyStart
    let handle ← Sst.write i generation (entries.map fun r ↦ r.map fun e ↦ (e.1, .value e.2))
      expectedItems opts
    let next ← Effect.ofExcept (checkedAdd generation 1)
    let manifestOffset := handle.baseOffset + handle.blobLen
    let manifest := placeManifest next [sstableRef handle] manifestOffset
    Container.writeBlobAt i manifestOffset manifest.encode
    Os.sync ioErr i
    let _ ← Container.writeHeader i 0 1 manifestOffset manifest.encode
    Os.sync ioErr i
    return { file := i, handle, manifest, manifestLen := manifest.encode.length })
  (Os.removeFile ioErr path)

/-! ## Opening -/

def compactionTmpPath (path : String) : String := path ++ ".compact.tmp"

/-- A memtable after the records of a log. -/
def replayed (records : List WalRecord) : Memtable :=
  records.foldl (fun m r ↦ r.entries.foldl (fun m e ↦ m.insert e.1 (.ofOption e.2)) m) ∅

/-- The manifest of an opened file, its length, and the current header. A file that is too short to
have a header gets a manifest without SSTables and a first header. -/
def readOrBootstrap (i : ℕ) : Effect Os BknError (Manifest × ℕ × ℕ × ℕ) := do
  let file ← Os.read ioErr i
  match ← Effect.ofExcept (Container.readHeader file) with
  | some slot =>
    let bytes ← Effect.ofExcept (Container.readManifest file slot)
    let manifest ← Effect.ofExcept
      (Except.ofOption (.corruption "manifest undecodable") (Manifest.decode bytes))
    return (manifest, slot.manifestLen, slot.seq, slot.slot)
  | none =>
    let manifest := placeManifest 1 [] Container.bodyStart
    Container.writeBlobAt i Container.bodyStart manifest.encode
    Os.sync ioErr i
    let (seq, slot) ← Container.writeHeader i 0 1 Container.bodyStart manifest.encode
    return (manifest, manifest.encode.length, seq, slot)

/-- Open the SSTables of a manifest. -/
def openSstables (i : ℕ) : List SstableRef → Effect Os BknError (List SstableHandle)
  | [] => pure []
  | r :: rs => do
    let file ← Os.read ioErr i
    let h ← Effect.ofExcept (Sst.openHandle file r.generation r.offset r.length)
    let hs ← openSstables i rs
    return h :: hs

/-- Open a database, or make one. -/
def openWithOptions (path : String) (options : LsmOptions) : Effect Os BknError LsmStorageBackend := do
  Os.call ioErr
  let i ← Os.openFile ioErr path
  Os.call (.databaseLocked path)
  (Os.removeFile ioErr (compactionTmpPath path)).ignore
  let (manifest, manifestLen, headerSeq, headerSlot) ← readOrBootstrap i
  let records ← Wal.recover i manifest.walRegionStart
  let sstables ← openSstables i manifest.sstables
  return {
    path, options
    state := {
      activeMemtable := replayed records
      immutableMemtables := []
      sstables := sstables.mergeSort fun a b ↦ a.generation ≤ b.generation
      nextSstableId := manifest.nextSstableId
      walRegionStart := manifest.walRegionStart
      manifestLen }
    container := { file := i, headerSeq, headerSlot } }

/-! ## Critical sections

Each section begins and ends without a lock. Readers and the other methods may run between two of
them, but no other writer. -/

/-- A computation on the files. -/
def io {α : Type} (x : Effect Os BknError α) : Effect LsmSystem BknError α :=
  Effect.zoom LsmSystem.os (fun s os ↦ { s with os }) x

def modifyState (f : EngineState → EngineState) : Effect LsmSystem BknError Unit :=
  Effect.modify fun s ↦ { s with backend := { s.backend with state := f s.backend.state } }

def modifyContainer (f : ContainerWriter → ContainerWriter) : Effect LsmSystem BknError Unit :=
  Effect.modify fun s ↦ { s with backend := { s.backend with container := f s.backend.container } }

omit [Lz4] [BloomSizing] in
theorem io_apply {α : Type} (x : Effect Os BknError α) (s : LsmSystem) :
    io x s = ((x s.os).1, { s with os := (x s.os).2 }) := rfl

omit [Lz4] [BloomSizing] in
theorem modifyState_apply (f : EngineState → EngineState) (s : LsmSystem) :
    modifyState f s =
      (.ok (), { s with backend := { s.backend with state := f s.backend.state } }) := rfl

omit [Lz4] [BloomSizing] in
theorem bind_io_of_ok {α β : Type} {x : Effect Os BknError α} {f : α → Effect LsmSystem BknError β}
    {s : LsmSystem} {a : α} {os' : Os} (h : x s.os = (.ok a, os')) :
    (io x >>= f) s = f a { s with os := os' } :=
  Effect.bind_apply_of_ok (by rw [io_apply, h])

omit [Lz4] [BloomSizing] in
theorem bind_io_of_error {α β : Type} {x : Effect Os BknError α}
    {f : α → Effect LsmSystem BknError β} {s : LsmSystem} {e : BknError} {os' : Os}
    (h : x s.os = (.error e, os')) : (io x >>= f) s = (.error e, { s with os := os' }) :=
  Effect.bind_apply_of_error (by rw [io_apply, h])

omit [Lz4] [BloomSizing] in
theorem bind_io_io_of_ok {α β γ : Type} {x : Effect Os BknError α} {y : Effect Os BknError β}
    {f : β → Effect LsmSystem BknError γ} {s : LsmSystem} {b : β} {os' : Os}
    (h : (x >>= fun _ ↦ y) s.os = (.ok b, os')) :
    (io x >>= fun _ ↦ io y >>= f) s = f b { s with os := os' } := by
  obtain ⟨a, os₁, hx, hy⟩ := Effect.bind_eq_ok.mp h
  rw [bind_io_of_ok hx]
  exact bind_io_of_ok hy

omit [Lz4] [BloomSizing] in
theorem bind_io_io_of_error {α β γ : Type} {x : Effect Os BknError α} {y : Effect Os BknError β}
    {f : β → Effect LsmSystem BknError γ} {s : LsmSystem} {e : BknError} {os' : Os}
    (h : (x >>= fun _ ↦ y) s.os = (.error e, os')) :
    (io x >>= fun _ ↦ io y >>= f) s = (.error e, { s with os := os' }) := by
  rcases Effect.bind_eq_error.mp h with hx | ⟨a, os₁, hx, hy⟩
  · exact bind_io_of_error hx
  · rw [bind_io_of_ok hx]
    exact bind_io_of_error hy

/-- Append the record of a batch to the log. -/
def appendRecord (pending : Pending) : Effect LsmSystem BknError Unit := do
  let s ← Effect.get
  io (Wal.append s.backend.container.file ⟨pending.entries⟩)

/-- Write a batch to the memtable; whether it is to be flushed. -/
def applyPending (pending : Pending) : Effect LsmSystem BknError Bool := do
  modifyState fun st ↦
    { st with activeMemtable := Layers.writeBatch LsmValue.ofOption st.activeMemtable pending }
  let s ← Effect.get
  return decide (s.backend.options.memtableFlushBytes ≤
    memtableByteSize s.backend.state.activeMemtable)

/-- Set the memtable aside, with a generation for it; nothing if it is empty. -/
def beginFlush : Effect LsmSystem BknError (Option (Memtable × ℕ)) := do
  let s ← Effect.get
  let memtable := s.backend.state.activeMemtable
  let generation := s.backend.state.nextSstableId
  if memtable.isEmpty then return none
  modifyState fun st ↦
    { st with
      immutableMemtables := st.immutableMemtables ++ [(generation, memtable)]
      activeMemtable := ∅ }
  let next ← Effect.ofExcept (checkedAdd generation 1)
  modifyState fun st ↦ { st with nextSstableId := next }
  return some (memtable, generation)

/-- Write the memtable as an SSTable and a manifest that names it, and then the header. -/
def writeFlush (memtable : Memtable) (generation : ℕ) :
    Effect LsmSystem BknError (SstableHandle × Manifest) := do
  let s ← Effect.get
  let cw := s.backend.container
  let handle ← io (Sst.write cw.file generation (memtable.entries.map .ok) memtable.size
    (writeOptions s.backend.options))
  let refs := s.backend.state.sstables.map sstableRef ++ [sstableRef handle]
  let manifestOffset := handle.baseOffset + handle.blobLen
  let manifest := placeManifest s.backend.state.nextSstableId refs manifestOffset
  io (Container.writeBlobAt cw.file manifestOffset manifest.encode)
  io (Os.sync ioErr cw.file)
  let (seq, slot) ← io (Container.writeHeader cw.file cw.headerSeq cw.headerSlot manifestOffset
    manifest.encode)
  modifyContainer fun cw ↦ { cw with headerSeq := seq, headerSlot := slot }
  return (handle, manifest)

/-- Put the SSTable in the place of the memtable; whether there are enough to merge. -/
def publishFlush (generation : ℕ) (handle : SstableHandle) (manifest : Manifest) :
    Effect LsmSystem BknError Bool := do
  modifyState fun st ↦
    { st with
      sstables := st.sstables ++ [handle]
      immutableMemtables := st.immutableMemtables.eraseP fun m ↦ m.1 = generation
      walRegionStart := manifest.walRegionStart
      manifestLen := manifest.encode.length }
  let s ← Effect.get
  return decide (s.backend.options.compactionTriggerFiles ≤ s.backend.state.sstables.length)

/-- The SSTables to merge, if it is worth it. -/
def pickSstables (force : Bool) : Effect LsmSystem BknError (Option (List SstableHandle)) := do
  let s ← Effect.get
  let sstables := s.backend.state.sstables
  if 2 ≤ sstables.length ∨ (force ∧ sstables ≠ []) then return some sstables else return none

/-- Take a generation. -/
def reserveGeneration : Effect LsmSystem BknError ℕ := do
  let s ← Effect.get
  let id := s.backend.state.nextSstableId
  let next ← Effect.ofExcept (checkedAdd id 1)
  modifyState fun st ↦ { st with nextSstableId := next }
  return id

/-- Make a completed rename durable: open the directory and sync it. -/
def syncParentDir : Effect Os BknError Unit := do
  Os.call ioErr
  Os.call ioErr

/-- Merge the SSTables into a new file and put it in the place of the old one. The sum of the
entries only sizes the filter. -/
def writeMerged (path : String) (opts : Sst.WriteOptions) (sstables : List SstableHandle)
    (generation : ℕ) : Effect Os BknError FreshContainer := do
  let sources := sstables.reverse.map fun h ↦ h.cursor .unbounded .unbounded
  let expected := (sstables.map SstableHandle.estimatedEntries).sum % 2 ^ 64
  let fresh ← writeFreshContainer (compactionTmpPath path) generation (MergeIter.merged sources)
    expected opts
  Os.call (.databaseLocked path)
  Os.rename ioErr (compactionTmpPath path) path
  return fresh

/-- From now on the new file is the container. -/
def switchContainer (fresh : FreshContainer) : Effect LsmSystem BknError Unit :=
  modifyContainer fun _ ↦ { file := fresh.file, headerSeq := 1, headerSlot := 0 }

/-- From now on its SSTable is the only one. -/
def switchState (fresh : FreshContainer) : Effect LsmSystem BknError Unit :=
  modifyState fun st ↦
    { st with
      sstables := [fresh.handle]
      walRegionStart := fresh.manifest.walRegionStart
      nextSstableId := fresh.manifest.nextSstableId
      manifestLen := fresh.manifestLen }

/-! ## Committing

A compaction that follows a flush is given up when there are fewer than two tables; one that was
asked for rewrites a single one too. -/

/-- Merge all SSTables into one, in a new file. -/
def compactAll (force : Bool) : Effect LsmSystem BknError Unit := do
  match ← pickSstables force with
  | none => return
  | some sstables =>
    let generation ← reserveGeneration
    let s ← Effect.get
    let fresh ← io (writeMerged s.backend.path (writeOptions s.backend.options) sstables generation)
    io syncParentDir
    switchContainer fresh
    switchState fresh

/-- Flush the memtable to a new SSTable. -/
def flush : Effect LsmSystem BknError Unit := do
  match ← beginFlush with
  | none => return
  | some (memtable, generation) =>
    let (handle, manifest) ← writeFlush memtable generation
    if ← publishFlush generation handle manifest then compactAll false

/-- Commit a batch: log it, write it to the memtable, and flush that if it is large enough. -/
def commitPending (pending : Pending) : Effect LsmSystem BknError Unit :=
  if pending.isEmpty then return
  else do
    appendRecord pending
    if ← applyPending pending then flush

/-- Flush and merge, however few SSTables there are. -/
def forceCompact : Effect LsmSystem BknError Unit := do
  flush
  compactAll true

end Lsm
