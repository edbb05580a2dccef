import Bkndb.Basic.Bytes
import Bkndb.Basic.OrdMap

/-!
# Memtables

`memtable.rs`: a sorted map of what was written last to each key. A deletion is kept as a tombstone,
which hides what older layers hold.

A layer answers a lookup in one of three ways: with a value, with a tombstone, or not at all. The
general facts about layers on top of each other are in `Bkndb.Basic.Layers`; a memtable is the
layer in which entries are exchanged, and the only one that is not on disk.
-/

/-- What a layer holds for a key. -/
inductive LsmValue where
  | value (b : Bytes)
  | tombstone
  deriving DecidableEq

namespace LsmValue

/-- The live value, if there is one. -/
def live : LsmValue → Option Bytes
  | value b => some b
  | tombstone => none

/-- A pending write as a layer holds it. -/
def ofOption : Option Bytes → LsmValue
  | some b => value b
  | none => tombstone

@[simp] theorem live_ofOption (o : Option Bytes) : (ofOption o).live = o := by cases o <;> rfl

/-- The bytes of a value; none for a tombstone. -/
def byteSize : LsmValue → ℕ
  | value b => b.length
  | tombstone => 0

end LsmValue

abbrev Memtable := OrdMap Bytes LsmValue

/-- The size by which a flush is decided. -/
def memtableByteSize (t : Memtable) : ℕ := (t.entries.map fun e ↦ e.1.length + e.2.byteSize).sum
