import Bkndb.Basic.Os
import Bkndb.Lsm.SstFormat
import Bkndb.Lsm.Wal

/-!
# SSTables

`sstable/mod.rs` and `sstable/cursor.rs`: writing a sorted run of entries at the end of a file,
opening a run of either format, point lookup, range cursor and verification. An open SSTable maps the
file; the mapping is the contents at the time it was made, since nothing that lies in a table is
written again while it is open.

A source of entries is the list of what it yields, errors included.

## The format

A blob is a sequence of blocks, a filter, an index and a footer. The footer of the second format
has a checksum over the filter and the index and ends in a magic number; that of the first one is
three numbers. Which of the two it is has to be guessed from the last bytes.

## Reading

* A lookup asks the bounds of the table and its filter, and then searches one block.
* A cursor loads one block after the other, from the first that may hold its start.
* Verification reads every block.

A block that does not match its checksum, or that breaks off, is reported as corrupt; numbers that
pass the largest integer are a panic.
-/

/-- An open SSTable. -/
structure SstableHandle where
  mmap : Bytes
  baseOffset : ℕ
  blobLen : ℕ
  bloom : BloomFilter
  blocks : List Sst.Block
  /-- Exact in the second format; the first never recorded it. -/
  entryCount : Option ℕ
  minKey : Bytes
  maxKey : Bytes
  generation : ℕ

namespace Sst

def footerV1Len : ℕ := 24

def footerV2Len : ℕ := 40

def magicV2 : Bytes := "BKNSST02".toUTF8.toList

/-- The index section. -/
structure IndexV2 where
  minKey : Bytes
  maxKey : Bytes
  entryCount : ℕ
  blocks : List BlockMeta

def BlockMeta.codec : Codec BlockMeta :=
  (Codec.bytes.prod (Codec.u64.prod (Codec.u32.prod (Codec.u32.prod (Codec.bool.prod Codec.u32))))).iso
    (fun p ↦ ⟨p.1, p.2.1, p.2.2.1, p.2.2.2.1, p.2.2.2.2.1, p.2.2.2.2.2⟩)
    (fun b ↦ (b.firstKey, b.offset, b.storedLen, b.rawLen, b.compressed, b.crc)) fun _ ↦ rfl

def IndexV2.codec : Codec IndexV2 :=
  (Codec.bytes.prod (Codec.bytes.prod (Codec.u64.prod (Codec.list BlockMeta.codec)))).iso
    (fun p ↦ ⟨p.1, p.2.1, p.2.2.1, p.2.2.2⟩)
    (fun i ↦ (i.minKey, i.maxKey, i.entryCount, i.blocks)) fun _ ↦ rfl

/-- The index section of the first format: smallest and largest key, and the marks. -/
def legacyIndexCodec : Codec (Bytes × Bytes × List (Bytes × ℕ)) :=
  Codec.bytes.prod (Codec.bytes.prod (Codec.list (Codec.bytes.prod Codec.u64)))

/-! ## Writing -/

/-- What a write has gathered. -/
structure SstWriter where
  block : BlockWriter := {}
  bloom : BloomFilter
  minKey : Option Bytes := none
  maxKey : Bytes := []
  entryCount : ℕ := 0

variable [Lz4] [BloomSizing]

/-- Take in the entries, one by one, and close the last block. -/
def writeEntries (opts : WriteOptions) :
    List (Except BknError SstEntry) → Effect SstWriter BknError Unit
  | [] => Effect.zoom SstWriter.block (fun w b ↦ { w with block := b })
      (BlockWriter.finishBlock opts)
  | .error e :: _ => Effect.throw e
  | .ok e :: rest => do
    Effect.modify fun w ↦
      { w with minKey := w.minKey.or (some e.1), bloom := w.bloom.insert e.1 }
    Effect.zoom SstWriter.block (fun w b ↦ { w with block := b }) (BlockWriter.push opts e)
    let w ← Effect.get
    let entryCount ← Effect.ofExcept (checkedAdd w.entryCount 1)
    Effect.modify fun w ↦ { w with maxKey := e.1, entryCount }
    writeEntries opts rest

/-- The index of a finished write. -/
def SstWriter.index (w : SstWriter) : IndexV2 where
  minKey := w.minKey.getD []
  maxKey := w.maxKey
  entryCount := w.entryCount
  blocks := w.block.blocks

/-- The filter, the index and the footer behind the blocks. -/
def SstWriter.trailer (w : SstWriter) : Bytes :=
  let bloomBytes := BloomFilter.codec.encode w.bloom
  let indexBytes := IndexV2.codec.encode w.index
  bloomBytes ++ indexBytes ++ Bytes.be 8 w.block.offset ++
    Bytes.be 8 (w.block.offset + bloomBytes.length) ++ Bytes.be 8 indexBytes.length ++
    Bytes.be 4 (crc32 (bloomBytes ++ indexBytes)) ++ Bytes.be 4 0 ++ magicV2

/-- The handle of a finished write. -/
def SstWriter.handle (w : SstWriter) (mmap : Bytes) (baseOffset generation : ℕ) : SstableHandle where
  mmap := mmap
  baseOffset := baseOffset
  blobLen := w.block.offset + (BloomFilter.codec.encode w.bloom).length +
    (IndexV2.codec.encode w.index).length + footerV2Len
  bloom := w.bloom
  blocks := w.block.blocks.map Block.ofMeta
  entryCount := some w.entryCount
  minKey := w.index.minKey
  maxKey := w.maxKey
  generation := generation

/-- Write a sorted run of entries at the end of the file. Blocks go out through a buffer, so that on
an error the blocks closed so far may be in the file. -/
def write (i generation : ℕ) (entries : List (Except BknError SstEntry)) (expectedItems : ℕ)
    (opts : WriteOptions) : Effect Os BknError SstableHandle := do
  let baseOffset ← Os.fileLen ioErr i
  Os.call ioErr
  if 2 ^ 63 ≤ opts.blockSize + 64 then Effect.throw (.panic "capacity overflow")
  let (res, w) := writeEntries opts entries { bloom := BloomFilter.new (max expectedItems 1) }
  match res with
  | .error e =>
    (Os.writeBuffered ioErr i baseOffset w.block.out).ignore
    Effect.throw e
  | .ok () =>
    Os.writeBuffered ioErr i baseOffset (w.block.out ++ w.trailer)
    Os.call ioErr
    let os ← Effect.get
    return w.handle (os.contents i) baseOffset generation

/-! ## The first format -/

/-- Where every `interval`-th entry lies. -/
def sparseMarks (interval : ℕ) : ℕ → ℕ → List SstEntry → List (Bytes × ℕ)
  | _, _, [] => []
  | n, offset, e :: es =>
    let rest := sparseMarks interval (n + 1) (offset + (encodeEntry e).length) es
    if n % interval = 0 then (e.1, offset) :: rest else rest

/-- A blob of the first format, from its smallest and largest key. -/
def blobV1 (entries : List SstEntry) (interval : ℕ) (minKey maxKey : Bytes) : Bytes :=
  let data := encodeEntries entries
  let bloom := (BloomFilter.new entries.length).insertAll (entries.map Prod.fst)
  let bloomBytes := BloomFilter.codec.encode bloom
  let indexBytes := legacyIndexCodec.encode (minKey, maxKey, sparseMarks interval 0 0 entries)
  data ++ bloomBytes ++ indexBytes ++ Bytes.be 8 data.length ++
    Bytes.be 8 (data.length + bloomBytes.length) ++ Bytes.be 8 indexBytes.length

def unwrapErr : BknError := .panic "called `Result::unwrap()` on an `Err` value"

/-- Write a blob as the first format did; where it begins and its length. -/
def writeV1 (i : ℕ) (entries : List SstEntry) (interval : ℕ) : Effect Os BknError (ℕ × ℕ) := do
  let base ← Os.fileLen unwrapErr i
  match entries.head?, entries.getLast? with
  | some first, some last =>
    if interval = 0 then
      Effect.throw (.panic "attempt to calculate the remainder with a divisor of zero")
    let blob := blobV1 entries interval first.1 last.1
    Os.call unwrapErr
    Os.writeAll unwrapErr i base blob
    return (base, blob.length)
  | _, _ => Effect.throw (.panic "index out of bounds")

/-! ## Opening -/

def corrupt (generation : ℕ) (what : String) : BknError :=
  .corruption ("sstable generation " ++ toString generation ++ what)

/-- Read a part of a blob. -/
def readAt (file : Bytes) (generation base offset len : ℕ) : Except BknError Bytes := do
  let start ← checkedAdd base offset
  if file.length < start + len then throw (corrupt generation " truncated: unexpected end of file")
  return file.slice start len

/-- A number of a footer. -/
def footerField (footer : Bytes) (i : ℕ) : ℕ := Bytes.ofBe (footer.slice (i * 8) 8)

/-- Whether a blob ends in the magic of the second format. -/
def isV2 (file : Bytes) (generation base blobLen : ℕ) : Except BknError Bool :=
  if footerV2Len ≤ blobLen then
    (readAt file generation base (blobLen - 8) 8).map fun b ↦ decide (b = magicV2)
  else .ok false

/-- What the index section says: blocks, number of entries, smallest and largest key. -/
def readIndex (generation : ℕ) (v2 : Bool) (indexBytes : Bytes) (bloomOffset : ℕ) :
    Except BknError (List Block × Option ℕ × Bytes × Bytes) :=
  if v2 then do
    let index ← Except.ofOption (corrupt generation ": undecodable")
      (IndexV2.codec.deserialize indexBytes)
    return (index.blocks.map Block.ofMeta, some index.entryCount, index.minKey, index.maxKey)
  else do
    let (minKey, maxKey, sparse) ← Except.ofOption (corrupt generation ": undecodable")
      (legacyIndexCodec.deserialize indexBytes)
    return (← legacyBlocks sparse bloomOffset, none, minKey, maxKey)

/-- The last block lies in the data section; the others are taken to lie before it. -/
def checkLastBlock (generation : ℕ) (blocks : List Block) (bloomOffset : ℕ) : Except BknError Unit :=
  match blocks.getLast? with
  | none => return
  | some b => do
    let stop ← checkedAdd b.offset b.storedLen
    if bloomOffset < stop then
      throw (corrupt generation ": block index points past the data section")

/-- Open the blob at `base` of a file. -/
def openHandle (file : Bytes) (generation base blobLen : ℕ) : Except BknError SstableHandle := do
  if blobLen < footerV1Len then
    throw (corrupt generation " is too small to contain a footer")
  let v2 ← isV2 file generation base blobLen
  let footerLen := if v2 then footerV2Len else footerV1Len
  let footer ← readAt file generation base (blobLen - footerLen) footerLen
  let bloomOffset := footerField footer 0
  let indexOffset := footerField footer 1
  let indexLen := footerField footer 2
  if indexOffset < bloomOffset ∨ 2 ^ 64 ≤ indexOffset + indexLen then
    throw (corrupt generation " has an inconsistent footer")
  let stop ← checkedAdd (indexOffset + indexLen) footerLen
  if blobLen < stop then throw (corrupt generation " has an inconsistent footer")
  let sections ← readAt file generation base bloomOffset (indexOffset + indexLen - bloomOffset)
  let bloomBytes := sections.take (indexOffset - bloomOffset)
  let indexBytes := sections.drop (indexOffset - bloomOffset)
  if v2 ∧ crc32 sections ≠ Bytes.ofBe (footer.slice 24 4) then
    throw (corrupt generation ": bloom/index checksum mismatch")
  let bloom ← Except.ofOption (corrupt generation ": undecodable")
    (BloomFilter.codec.deserialize bloomBytes)
  let (blocks, entryCount, minKey, maxKey) ← readIndex generation v2 indexBytes bloomOffset
  checkLastBlock generation blocks bloomOffset
  return { mmap := file, baseOffset := base, blobLen, bloom, blocks, entryCount, minKey, maxKey
           generation }

end Sst

namespace SstableHandle

variable [Lz4]

/-! ## Reading -/

/-- Number of entries, or a guess for the first format; only used to size filters. -/
def estimatedEntries (h : SstableHandle) : ℕ := h.entryCount.getD (h.blocks.length * 16)

/-- The stored bytes of block `i`, checked and decompressed. -/
def blockBytes (h : SstableHandle) (i : ℕ) (b : Sst.Block) : Except BknError Bytes := do
  let block := " block " ++ toString i
  let start ← checkedAdd h.baseOffset b.offset
  let stop ← checkedAdd start b.storedLen
  if h.mmap.length < stop then
    throw (Sst.corrupt h.generation (block ++ " lies past the end of the file"))
  let stored := h.mmap.slice start b.storedLen
  if b.crc.any (· ≠ crc32 stored) then
    throw (Sst.corrupt h.generation (block ++ ": checksum mismatch"))
  if b.compressed then
    Except.ofOption (Sst.corrupt h.generation (block ++ ": undecodable"))
      (Lz4.decompress stored b.rawLen)
  else return stored

/-- The block that would contain a key, if any could: the last one whose first key is not above it. -/
def blockFor (h : SstableHandle) (key : Bytes) : Option ℕ :=
  match (h.blocks.takeWhile fun b ↦ b.firstKey ≤ key).length with
  | 0 => none
  | n + 1 => some n

/-- Search a block entry by entry; an entry takes at least five bytes. -/
def searchBlock (key : Bytes) : ℕ → Bytes → Except BknError (Option LsmValue)
  | 0, _ => .ok none
  | fuel + 1, rest =>
    if rest = [] then .ok none
    else do
      let (k, value, consumed) ← Sst.decodeEntry rest
      if k = key then return some value
      else if key < k then return none
      else searchBlock key fuel (rest.drop consumed)

/-- Point lookup. -/
def get (h : SstableHandle) (key : Bytes) : Except BknError (Option LsmValue) :=
  if h.blocks = [] ∨ key < h.minKey ∨ h.maxKey < key then .ok none
  else do
    if !(← h.bloom.mightContain key) then return none
    match h.blockFor key with
    | none => return none
    | some i =>
      match h.blocks[i]? with
      | none => throw (.panic "index out of bounds")
      | some b =>
        let block ← h.blockBytes i b
        searchBlock key block.length block

/-- All entries of a block. -/
def decodeBlock : ℕ → Bytes → Except BknError (List SstEntry)
  | 0, _ => .ok []
  | fuel + 1, rest =>
    if rest = [] then .ok []
    else do
      let (k, value, consumed) ← Sst.decodeEntry rest
      return (k, value) :: (← decodeBlock fuel (rest.drop consumed))

def belowStart (key : Bytes) : Bound Bytes → Bool
  | .included b => key < b
  | .excluded b => key ≤ b
  | .unbounded => false

def pastEnd (key : Bytes) : Bound Bytes → Bool
  | .included b => b < key
  | .excluded b => b ≤ key
  | .unbounded => false

/-- Hand out the entries of a loaded block: up to the first one past the end, if there is one. -/
def drain (stop : Bound Bytes) : List SstEntry → List (Except BknError SstEntry) × Bool
  | [] => ([], false)
  | e :: rest =>
    if pastEnd e.1 stop then ([], true) else ((.ok e :: (drain stop rest).1), (drain stop rest).2)

/-- What the cursor yields from block `i` on: it loads one after the other, leaves out what is
below the start, and is done after the first entry past the end or the first error. -/
def cursorFrom (h : SstableHandle) (start stop : Bound Bytes) :
    ℕ → List Sst.Block → List (Except BknError SstEntry)
  | _, [] => []
  | i, b :: bs =>
    match h.blockBytes i b >>= fun block ↦ decodeBlock block.length block with
    | .error e => [.error e]
    | .ok es =>
      let (out, done) := drain stop (es.filter fun e ↦ !belowStart e.1 start)
      if done then out else out ++ cursorFrom h start stop (i + 1) bs

/-- The bound lies below every key of the table. -/
def endsBefore (minKey : Bytes) : Bound Bytes → Bool
  | .included k | .excluded k => k < minKey
  | .unbounded => false

/-- The bound lies above every key of the table. -/
def startsAfter (maxKey : Bytes) : Bound Bytes → Bool
  | .included k | .excluded k => maxKey < k
  | .unbounded => false

/-- The block a cursor begins at. -/
def firstBlock (h : SstableHandle) : Bound Bytes → ℕ
  | .included k | .excluded k => (h.blockFor k).getD 0
  | .unbounded => 0

/-- A range cursor: the entries within the bounds, tombstones included. -/
def cursor (h : SstableHandle) (start stop : Bound Bytes) : List (Except BknError SstEntry) :=
  if h.blocks = [] ∨ endsBefore h.minKey stop ∨ startsAfter h.maxKey start then []
  else h.cursorFrom start stop (h.firstBlock start) (h.blocks.drop (h.firstBlock start))

/-- What verification counted. -/
structure VerifyCounts where
  blocksVerified : ℕ := 0
  blocksUnchecked : ℕ := 0
  entries : ℕ := 0
  deriving DecidableEq

/-- Read and decode every block. -/
def verifyBlocks (h : SstableHandle) (counts : VerifyCounts) :
    ℕ → List Sst.Block → Except BknError VerifyCounts
  | _, [] => .ok counts
  | i, b :: bs => do
    let block ← h.blockBytes i b
    let es ← decodeBlock block.length block
    let counts := { counts with entries := counts.entries + es.length }
    h.verifyBlocks (if b.crc.isSome then { counts with blocksVerified := counts.blocksVerified + 1 }
      else { counts with blocksUnchecked := counts.blocksUnchecked + 1 }) (i + 1) bs

/-- Check every block, and that there are as many entries as the index says. -/
def verify (h : SstableHandle) : Except BknError VerifyCounts := do
  let counts ← h.verifyBlocks {} 0 h.blocks
  match h.entryCount.filter (· ≠ counts.entries) with
  | some n =>
    throw (Sst.corrupt h.generation (": index records " ++ toString n ++
      " entries but the blocks hold " ++ toString counts.entries))
  | none => return counts

end SstableHandle
