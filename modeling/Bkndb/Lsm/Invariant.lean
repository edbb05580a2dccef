import Bkndb.Lsm.Tx
import Bkndb.Lsm.Writes

/-!
# What holds between the sections

The engine's invariant in two halves: the file at the path is a well-formed container, and what is
in memory denotes the same map as that container. Only while no memtable is set aside does the
memory also say how to go on: which header is current, where the log begins and which tables there
are. A memtable that stays set aside is what a failed flush leaves behind.

## Two halves

`OnDisk` is about the file, `InMemory` about the layers in memory, and they are tied together by
the map that both stand for. `Books` is the rest of what an engine remembers, and has to be right
only when it is used: when a header is to be written or the tables are to be merged.

`Settled` is the stronger state in which every operation goes through. A step that fails leaves
`Intact` and may end `Settled`; which steps are possible after that is told where the sections are
described.
-/

open Container Layers

/-- The container is the file with this name, and not the file that a compaction would write. -/
structure Placed (os : Os) (path : String) (i : ℕ) : Prop where
  named : os.names path = some i
  lt_next : i < os.next
  apart : ∀ j, os.names (Lsm.compactionTmpPath path) = some j → j ≠ i ∧ j < os.next

theorem Placed.touches {os os' : Os} {path : String} {i j : ℕ} (h : Placed os path i)
    (ht : os.Touches j os') : Placed os' path i where
  named := by rw [ht.names, h.named]
  lt_next := by rw [ht.next]; exact h.lt_next
  apart := by rw [ht.names, ht.next]; exact h.apart

theorem compactionTmpPath_ne (path : String) : Lsm.compactionTmpPath path ≠ path := by
  intro h
  have hlen := congrArg String.length h
  rw [Lsm.compactionTmpPath, String.length_append] at hlen
  have hpos : 0 < ".compact.tmp".length := by decide
  omega

variable [Lz4]

/-- The file is this image. -/
structure OnDisk (s : LsmSystem) (v : Image) : Prop where
  contents : s.os.contents s.backend.container.file = v.file
  placed : Placed s.os s.backend.path s.backend.container.file

/-- The books are those of the image. -/
structure Books (b : LsmStorageBackend) (v : Image) : Prop where
  seq : b.container.headerSeq = v.header.seq
  slot : b.container.headerSlot = v.header.slot
  holds : List.Forall₂ (fun h t ↦ SstableHandle.Holds h (OrdMap.entries t)) b.state.sstables v.tables
  refs : b.state.sstables.map Lsm.sstableRef = v.manifest.sstables
  start : b.state.walRegionStart = v.manifest.walRegionStart
  next : v.manifest.nextSstableId ≤ b.state.nextSstableId

/-- What is in memory denotes the map that the image stands for. -/
structure InMemory (b : LsmStorageBackend) (v : Image) (D : OrdMap Bytes Bytes) : Prop where
  stored : v.Denotes D
  live : Lsm.SnapshotDenotes (Lsm.snapshot b) D
  active : b.state.immutableMemtables = [] → b.state.activeMemtable = Lsm.replayed v.records
  books : b.state.immutableMemtables = [] → Books b v

/-- **The invariant.** -/
structure Intact (s : LsmSystem) (v : Image) (D : OrdMap Bytes Bytes) : Prop where
  disk : OnDisk s v
  memory : InMemory s.backend v D

/-- Nothing is left over from a failed step: no memtable is set aside, and the log reaches to the
end of the file. -/
structure Settled (s : LsmSystem) (v : Image) : Prop where
  immutables : s.backend.state.immutableMemtables = []
  clean : v.Clean

theorem InMemory.of_books {b : LsmStorageBackend} {v : Image} {D : OrdMap Bytes Bytes}
    (hstored : v.Denotes D) (himm : b.state.immutableMemtables = [])
    (hactive : b.state.activeMemtable = Lsm.replayed v.records) (hbooks : Books b v) :
    InMemory b v D := by
  refine ⟨hstored, ⟨v.tables, hbooks.holds, ?_⟩, fun _ ↦ hactive, fun _ ↦ hbooks⟩
  rw [Lsm.layers, Lsm.snapshot, himm, hactive]
  exact hstored

namespace Lsm

/-! ## Appending and applying

A commit is in the log before it is in memory. Between the two, the file stands for the map with
the batch, and the memory for the one without. -/

/-- A batch that fits a frame, and a file with room for the frame. -/
structure Loggable (v : Image) (p : Pending) : Prop where
  fits : (⟨p.entries⟩ : WalRecord).Fits
  room : v.file.length + (Wal.frame (⟨p.entries⟩ : WalRecord).serialize).length ≤ Os.maxLen

/-- The image with the frame of a batch. -/
abbrev Loggable.image {v : Image} {p : Pending} (h : Loggable v p) : Image :=
  v.logged ⟨p.entries⟩ h.fits h.room

/-- The batch is in the log and not yet in memory. -/
structure Logged (s : LsmSystem) (v : Image) (p : Pending) (D : OrdMap Bytes Bytes) : Prop where
  loggable : Loggable v p
  disk : OnDisk s loggable.image
  memory : InMemory s.backend v D

omit [Lz4] in
theorem appendRecord_apply (p : Pending) (s : LsmSystem) :
    appendRecord p s = ((Wal.append s.backend.container.file ⟨p.entries⟩ s.os).1,
      { s with os := (Wal.append s.backend.container.file ⟨p.entries⟩ s.os).2 }) := rfl

omit [Lz4] in
theorem appendRecord_touches (p : Pending) (s : LsmSystem) :
    (appendRecord p s).2.backend = s.backend ∧
      s.os.Touches s.backend.container.file (appendRecord p s).2.os :=
  ⟨rfl, Wal.steps_append _ _ s.os⟩

/-- A batch is appended to a log that reaches to the end of the file. -/
theorem appendRecord_ok {s s' : LsmSystem} {v : Image} {D : OrdMap Bytes Bytes} {p : Pending}
    (h : Intact s v D) (hclean : v.Clean) (hok : appendRecord p s = (.ok (), s')) :
    Logged s' v p D ∧ s'.backend = s.backend ∧
      (s'.os.inodes s.backend.container.file).durable =
        s'.os.contents s.backend.container.file := by
  obtain ⟨hbackend, htouches⟩ := appendRecord_touches p s
  rw [hok] at hbackend htouches
  rw [appendRecord_apply] at hok
  obtain ⟨hresult, rfl⟩ := Prod.mk.inj hok
  have happend : Wal.append s.backend.container.file ⟨p.entries⟩ s.os =
      (.ok (), (Wal.append s.backend.container.file ⟨p.entries⟩ s.os).2) := Prod.ext hresult rfl
  obtain ⟨hfits, hcontents, hle, hdurable⟩ := Wal.append_eq_ok happend
  rw [h.disk.contents] at hcontents
  have hroom : v.file.length + (Wal.frame (⟨p.entries⟩ : WalRecord).serialize).length ≤ Os.maxLen := by
    rw [hcontents, List.length_append] at hle
    exact hle
  refine ⟨⟨⟨hfits, hroom⟩, ⟨?_, h.disk.placed.touches htouches⟩, h.memory⟩, rfl, hdurable⟩
  rw [Image.file_logged hclean]
  exact hcontents

/-- The batch goes to the memtable, and into the map. -/
theorem applyPending_ok {s : LsmSystem} {v : Image} {D : OrdMap Bytes Bytes} {p : Pending}
    (h : Logged s v p D) :
    ∃ due s', applyPending p s = (.ok due, s') ∧ s'.os = s.os ∧
      Intact s' h.loggable.image (Layers.applyBatch D p) ∧
      s'.backend.state.immutableMemtables = s.backend.state.immutableMemtables ∧
      s'.backend.container = s.backend.container := by
  refine ⟨_, _, rfl, rfl, ⟨⟨h.disk.contents, h.disk.placed⟩, ?_⟩, rfl, rfl⟩
  refine ⟨h.memory.stored.logged _ _, ?_, fun himm ↦ ?_, fun himm ↦ ?_⟩
  · obtain ⟨tables, hholds, hdenotes⟩ := h.memory.live
    exact ⟨tables, hholds, Layers.Denotes.writeBatch hdenotes LsmValue.live_ofOption p⟩
  · have hactive := h.memory.active himm
    have hreplayed := Image.replayed_record v.records p
    change Layers.writeBatch LsmValue.ofOption s.backend.state.activeMemtable p = _
    rw [hactive, ← hreplayed]
    rfl
  · obtain ⟨hseq, hslot, hholds, hrefs, hstart, hnext⟩ := h.memory.books himm
    exact ⟨hseq, hslot, hholds, hrefs, hstart, hnext⟩

end Lsm
