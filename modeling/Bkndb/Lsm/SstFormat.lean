import Bkndb.Basic.Effect
import Bkndb.Basic.Crc32
import Bkndb.Basic.File
import Bkndb.Lsm.Bloom
import Bkndb.Lsm.Memtable

/-!
# Entries and blocks of an SSTable

`sstable/format.rs`: entries are packed one after the other into blocks, each block is stored raw or
compressed with its own checksum, and the index remembers the first key of each. The compressor is
a parameter: all that is asked of it is that it round-trips.

## Widths

Lengths in an entry and in the index have four bytes. A value or a key that is longer is cut to
that by the writer of the first format; the second format checks the length of a block after it was
written, and so refuses what contains such an entry.

## Decoding

Every slice is checked against the block, and an entry that is cut short is an error. The decoder
of a block reads entry after entry until the block is used up.
-/

/-- Block compression. -/
class Lz4 where
  compress : Bytes → Bytes
  /-- Decompress into a buffer of the given length. -/
  decompress : Bytes → ℕ → Option Bytes
  decompress_compress (b : Bytes) : decompress (compress b) b.length = some b

/-- A compressor that makes nothing smaller. -/
abbrev Lz4.stored : Lz4 where
  compress b := b
  decompress b _ := some b
  decompress_compress _ := rfl

/-- A key and what an SSTable holds for it. -/
abbrev SstEntry := Bytes × LsmValue

namespace Sst

/-! ## Entries -/

/-- The tag of an entry, and its value. -/
def encodeValue : LsmValue → Bytes
  | .tombstone => [0]
  | .value b => 1 :: (Bytes.be 4 b.length ++ b)

/-- One entry. Lengths are cut to four bytes. -/
def encodeEntry (e : SstEntry) : Bytes := Bytes.be 4 e.1.length ++ (e.1 ++ encodeValue e.2)

/-- The entries of a block. -/
def encodeEntries (es : List SstEntry) : Bytes := es.flatMap encodeEntry

def truncated : BknError := .corruption "sstable entry truncated"

/-- Four bytes as a length. -/
def readU32 (slice : Bytes) (pos : ℕ) : Except BknError ℕ :=
  if pos + 4 ≤ slice.length then .ok (Bytes.ofBe (slice.slice pos 4)) else .error truncated

/-- Decode the entry at the front: its key, its value and the bytes it takes. -/
def decodeEntry (slice : Bytes) : Except BknError (Bytes × LsmValue × ℕ) := do
  let keyLen ← readU32 slice 0
  if slice.length < 4 + keyLen then throw truncated
  let key := slice.slice 4 keyLen
  match slice[4 + keyLen]? with
  | none => throw truncated
  | some 0 => return (key, .tombstone, 4 + keyLen + 1)
  | some 1 =>
    let valueLen ← readU32 slice (4 + keyLen + 1)
    if slice.length < 4 + keyLen + 1 + 4 + valueLen then throw truncated
    return (key, .value (slice.slice (4 + keyLen + 1 + 4) valueLen), 4 + keyLen + 1 + 4 + valueLen)
  | some tag => throw (.corruption ("unknown sstable entry tag " ++ toString tag.toNat))

/-! ## Blocks -/

/-- How blocks are written. -/
structure WriteOptions where
  /-- A block closes as soon as it has this many bytes. -/
  blockSize : ℕ
  compress : Bool

/-- A block in the index section. -/
structure BlockMeta where
  firstKey : Bytes
  offset : ℕ
  storedLen : ℕ
  rawLen : ℕ
  compressed : Bool
  crc : ℕ
  deriving DecidableEq

/-- A block as the reader sees it; a run of the first format has no checksum. -/
structure Block where
  firstKey : Bytes
  offset : ℕ
  storedLen : ℕ
  rawLen : ℕ
  compressed : Bool
  crc : Option ℕ
  deriving DecidableEq

def Block.ofMeta (m : BlockMeta) : Block :=
  { m with crc := some m.crc }

/-- Entries are gathered in `raw`; what is written out so far is `out`. -/
structure BlockWriter where
  out : Bytes := []
  raw : Bytes := []
  firstKey : Bytes := []
  offset : ℕ := 0
  blocks : List BlockMeta := []

def blockTooLarge (n : ℕ) : BknError :=
  .backend ("sstable block too large (" ++ toString n ++ " bytes)")

namespace BlockWriter

variable [Lz4]

/-- The compressed block, if it is smaller. -/
def compressed (opts : WriteOptions) (raw : Bytes) : Option Bytes :=
  if opts.compress then (some (Lz4.compress raw)).filter fun c ↦ c.length < raw.length else none

/-- The bytes a block is stored as. -/
def stored (opts : WriteOptions) (raw : Bytes) : Bytes := (compressed opts raw).getD raw

/-- Write a block out. Its lengths have to fit four bytes, which is checked after the write. -/
def finishBlock (opts : WriteOptions) : Effect BlockWriter BknError Unit := fun w ↦
  if w.raw = [] then (.ok (), w)
  else
    let stored := stored opts w.raw
    let w' := { w with out := w.out ++ stored }
    if 2 ^ 32 ≤ stored.length then (.error (blockTooLarge stored.length), w')
    else if 2 ^ 32 ≤ w.raw.length then (.error (blockTooLarge w.raw.length), w')
    else
      (.ok (), { w' with
        blocks := w.blocks ++ [{
          firstKey := w.firstKey
          offset := w.offset
          storedLen := stored.length
          rawLen := w.raw.length
          compressed := (compressed opts w.raw).isSome
          crc := crc32 stored }]
        firstKey := []
        offset := w.offset + stored.length
        raw := [] })

/-- Add an entry, and close the block if it is full. -/
def push (opts : WriteOptions) (e : SstEntry) : Effect BlockWriter BknError Unit := do
  Effect.modify fun w ↦
    { w with firstKey := if w.raw = [] then e.1 else w.firstKey, raw := w.raw ++ encodeEntry e }
  let w ← Effect.get
  if max opts.blockSize 1 ≤ w.raw.length then finishBlock opts

end BlockWriter

/-! ## The first format -/

/-- A run of the first format reaches to the next mark, the last one to the end of the data. -/
def legacyBlocks : List (Bytes × ℕ) → ℕ → Except BknError (List Block)
  | [], _ => .ok []
  | (firstKey, offset) :: rest, dataEnd => do
    let stop := (rest.head?.map Prod.snd).getD dataEnd
    if stop < offset then throw (.panic "attempt to subtract with overflow")
    let blocks ← legacyBlocks rest dataEnd
    return { firstKey, offset, storedLen := stop - offset, rawLen := stop - offset
             compressed := false, crc := none } :: blocks

end Sst
