import Bkndb.Lsm.SstHolds

/-!
# Writing an SSTable

What a write has gathered at any point: the blocks closed so far hold the entries in order, and the
open block holds the rest. A write that succeeds has put down these blocks, the filter, the index
and the footer, and the table it hands out holds the entries it was given.

## The invariant of the loop

`Gathered` says what the writer holds after some of the entries: closed blocks in the order of the
index, and the rest in the open block. Adding an entry keeps it, closing a block keeps it, and at
the end no block is open (`SstWriter.Gathered.blocks`). A block whose length does not fit is
refused when it is closed, which is why entries in closed blocks are short.
-/

namespace Sst

open Layers

variable [Lz4]

/-! ## Stored blocks -/

/-- A part of the data section that decodes to some entries. -/
structure Stored (data : Bytes) (b : Block) (chunk : List SstEntry) : Prop where
  first : chunk.head?.map Prod.fst = some b.firstKey
  inside : b.offset + b.storedLen ≤ data.length
  crc : ∀ c, b.crc = some c → c = crc32 (data.slice b.offset b.storedLen)
  bytes : if b.compressed then
      Lz4.decompress (data.slice b.offset b.storedLen) b.rawLen = some (encodeEntries chunk)
    else data.slice b.offset b.storedLen = encodeEntries chunk

theorem Stored.append {data : Bytes} {b : Block} {chunk : List SstEntry} (h : Stored data b chunk)
    (more : Bytes) : Stored (data ++ more) b chunk := by
  have hslice := Bytes.slice_append_left h.inside more
  refine ⟨h.first, ?_, ?_, ?_⟩
  · rw [List.length_append]
    exact h.inside.trans (Nat.le_add_right ..)
  · rw [hslice]
    exact h.crc
  · rw [hslice]
    exact h.bytes

end Sst

namespace SstableHandle

open Sst Layers

variable [Lz4]

/-- A block stored in the data section is read from the file the section lies in. -/
theorem blockHolds_of_stored {h : SstableHandle} {before data after : Bytes} {b : Block}
    {chunk : List SstEntry} (hmap : h.mmap = before ++ (data ++ after))
    (hbase : h.baseOffset = before.length) (hlen : h.mmap.length < 2 ^ 64)
    (hs : Stored data b chunk) : h.BlockHolds b chunk := by
  have hinside := hs.inside
  have hfile : h.mmap.length = before.length + (data.length + after.length) := by
    rw [hmap, List.length_append, List.length_append]
  have hslice : h.mmap.slice (before.length + b.offset) b.storedLen =
      data.slice b.offset b.storedLen := by
    rw [hmap, Bytes.slice_append_right, Bytes.slice_append_left hinside]
  refine ⟨hs.first, fun i ↦ ?_⟩
  have hcrc : b.crc.any (fun c ↦ decide (c ≠ crc32 (data.slice b.offset b.storedLen))) = false := by
    cases hc : b.crc with
    | none => rfl
    | some c => simp [hs.crc c hc]
  have hbytes := hs.bytes
  rw [blockBytes, hbase, checkedAdd, if_pos (by omega), Except.ok_bind, checkedAdd,
    if_pos (by omega), Except.ok_bind, if_neg (by omega), hslice]
  dsimp only
  rw [hcrc]
  cases hcomp : b.compressed with
  | false =>
    rw [hcomp, if_neg Bool.false_ne_true] at hbytes
    exact congrArg Except.ok hbytes
  | true =>
    rw [hcomp, if_pos rfl] at hbytes
    simp [hbytes, Except.ofOption]

end SstableHandle

namespace Sst

open Layers

variable [Lz4]

/-! ## The block writer -/

/-- A block of the index that holds some entries. -/
structure MetaHolds (out : Bytes) (m : BlockMeta) (chunk : List SstEntry) : Prop where
  stored : Stored out (Block.ofMeta m) chunk
  storedLen_lt : m.storedLen < 2 ^ 32
  rawLen_lt : m.rawLen < 2 ^ 32
  crc_lt : m.crc < 2 ^ 32
  short : ∀ e ∈ chunk, ShortEntry e

theorem stored_of_metaHolds {out : Bytes} {metas : List BlockMeta} {chunks : List (List SstEntry)}
    (h : List.Forall₂ (MetaHolds out) metas chunks) :
    List.Forall₂ (Stored out) (metas.map Block.ofMeta) chunks := by
  induction h with
  | nil => exact .nil
  | cons hm _ ih => exact .cons hm.stored ih

namespace BlockWriter

/-- What a block is stored as decodes to what it was made of. -/
theorem decompress_stored (opts : WriteOptions) (raw : Bytes) :
    if (compressed opts raw).isSome then
      Lz4.decompress (BlockWriter.stored opts raw) raw.length = some raw
    else BlockWriter.stored opts raw = raw := by
  rw [BlockWriter.stored]
  cases h : compressed opts raw with
  | none => simp
  | some c =>
    rw [compressed] at h
    split at h
    next =>
      obtain ⟨hc, -⟩ := Option.filter_eq_some_iff.mp h
      obtain rfl := Option.some.inj hc
      simpa using Lz4.decompress_compress raw
    next => cases h

/-- **What the block writer has gathered.** The closed blocks hold the entries, the open one the
rest. -/
structure Gathered (w : BlockWriter) (es : List SstEntry) : Prop where
  offset : w.offset = w.out.length
  split : ∃ chunks tail, es = chunks.flatten ++ tail ∧
    List.Forall₂ (MetaHolds w.out) w.blocks chunks ∧ w.raw = encodeEntries tail ∧
    ∀ e, tail.head? = some e → w.firstKey = e.1

theorem gathered_empty : Gathered {} [] :=
  ⟨rfl, [], [], rfl, .nil, rfl, by simp⟩

theorem finishBlock_eq_ok {opts : WriteOptions} {w w' : BlockWriter}
    (h : finishBlock opts w = (.ok (), w')) :
    (w.raw = [] ∧ w' = w) ∨
      (w.raw ≠ [] ∧ (stored opts w.raw).length < 2 ^ 32 ∧ w.raw.length < 2 ^ 32 ∧
        w' = { out := w.out ++ stored opts w.raw
               raw := []
               firstKey := []
               offset := w.offset + (stored opts w.raw).length
               blocks := w.blocks ++ [{
                 firstKey := w.firstKey
                 offset := w.offset
                 storedLen := (stored opts w.raw).length
                 rawLen := w.raw.length
                 compressed := (compressed opts w.raw).isSome
                 crc := crc32 (stored opts w.raw) }] }) := by
  rw [finishBlock] at h
  split at h
  next hnil =>
    cases h
    exact .inl ⟨hnil, rfl⟩
  next hne =>
    dsimp only at h
    split at h
    · cases h
    next hstored =>
      split at h
      · cases h
      next hraw =>
        cases h
        exact .inr ⟨hne, by omega, by omega, rfl⟩

theorem Gathered.finishBlock {opts : WriteOptions} {w w' : BlockWriter} {es : List SstEntry}
    (hw : w.Gathered es) (h : BlockWriter.finishBlock opts w = (.ok (), w')) :
    w'.Gathered es ∧ w'.raw = [] := by
  obtain ⟨chunks, tail, hes, hblocks, hraw, hfirst⟩ := hw.split
  rcases finishBlock_eq_ok h with ⟨hnil, rfl⟩ | ⟨hne, hstored, hrawlen, rfl⟩
  · exact ⟨hw, hnil⟩
  · refine ⟨⟨?_, chunks ++ [tail], [], ?_, ?_, rfl, by simp⟩, rfl⟩
    · simp [hw.offset]
    · simp [hes]
    · have hold : List.Forall₂ (MetaHolds (w.out ++ BlockWriter.stored opts w.raw)) w.blocks chunks :=
        hblocks.imp fun m chunk hm ↦ { hm with stored := hm.stored.append _ }
      refine List.rel_append hold (.cons ?_ .nil)
      have hslice : (w.out ++ BlockWriter.stored opts w.raw).slice w.offset
          (BlockWriter.stored opts w.raw).length = BlockWriter.stored opts w.raw :=
        Bytes.slice_of_eq w.out _ [] (by simp) hw.offset.symm rfl
      refine ⟨⟨?_, ?_, ?_, ?_⟩, hstored, hrawlen, crc32_lt _, ?_⟩
      · cases htail : tail with
        | nil => rw [htail] at hraw; exact absurd hraw hne
        | cons e rest => simp [Block.ofMeta, hfirst e (by rw [htail]; rfl)]
      · simp [Block.ofMeta, hw.offset]
      · intro c hc
        simp only [Block.ofMeta, Option.some.injEq] at hc ⊢
        rw [hslice, hc]
      · have hdec := decompress_stored opts w.raw
        simp only [Block.ofMeta]
        rw [hslice, ← hraw]
        exact hdec
      · exact shortEntry_of_length_lt (hraw ▸ hrawlen)

theorem Gathered.push {opts : WriteOptions} {w w' : BlockWriter} {es : List SstEntry} {e : SstEntry}
    (hw : w.Gathered es) (h : BlockWriter.push opts e w = (.ok (), w')) :
    w'.Gathered (es ++ [e]) := by
  obtain ⟨chunks, tail, hes, hblocks, hraw, hfirst⟩ := hw.split
  have hopen : Gathered { w with
      firstKey := if w.raw = [] then e.1 else w.firstKey, raw := w.raw ++ encodeEntry e }
      (es ++ [e]) := by
    refine ⟨hw.offset, chunks, tail ++ [e], by simp [hes], hblocks, ?_, ?_⟩
    · rw [encodeEntries_append, ← hraw]
      simp [encodeEntries]
    · intro e' he'
      cases htail : tail with
      | nil =>
        rw [htail] at he' hraw
        obtain rfl : e = e' := by simpa using he'
        exact if_pos hraw
      | cons e₀ rest =>
        rw [htail] at he' hraw
        have hne : w.raw ≠ [] := by simp [hraw, encodeEntries_eq_nil]
        obtain rfl : e₀ = e' := by simpa using he'
        exact (if_neg hne).trans (hfirst e₀ (by rw [htail]; rfl))
  rw [BlockWriter.push, Effect.bind_apply_of_ok (Effect.modify_apply ..),
    Effect.bind_apply_of_ok (Effect.get_apply _)] at h
  generalize ({ w with
    firstKey := if w.raw = [] then e.1 else w.firstKey, raw := w.raw ++ encodeEntry e } :
      BlockWriter) = w₁ at hopen h
  split at h
  · exact (hopen.finishBlock h).1
  · cases h
    exact hopen

end BlockWriter

/-! ## The whole write

Blocks are written out as they are closed; the trailer is one write at the end. Nothing is read
back. -/

variable [BloomSizing]

/-- **What a write has gathered.** -/
structure SstWriter.Gathered (n : ℕ) (w : SstWriter) (es : List SstEntry) : Prop where
  block : w.block.Gathered es
  bloom : w.bloom = (BloomFilter.new n).insertAll (es.map Prod.fst)
  minKey : w.minKey = es.head?.map Prod.fst
  maxKey : w.maxKey = (es.getLast?.map Prod.fst).getD []
  entryCount : w.entryCount = es.length
  count_lt : es.length < 2 ^ 64

theorem SstWriter.gathered_empty (n : ℕ) :
    SstWriter.Gathered n { bloom := BloomFilter.new n } [] :=
  ⟨BlockWriter.gathered_empty, rfl, rfl, rfl, rfl, by norm_num⟩

theorem SstWriter.Gathered.entry {n : ℕ} {w : SstWriter} {es : List SstEntry} {opts : WriteOptions}
    {e : SstEntry} {block : BlockWriter} (hw : w.Gathered n es)
    (hpush : BlockWriter.push opts e w.block = (.ok (), block)) (hlt : es.length + 1 < 2 ^ 64) :
    SstWriter.Gathered n { block, bloom := w.bloom.insert e.1, minKey := w.minKey.or (some e.1)
                           maxKey := e.1, entryCount := es.length + 1 } (es ++ [e]) where
  block := hw.block.push hpush
  bloom := by
    rw [hw.bloom, BloomFilter.insertAll, BloomFilter.insertAll, List.map_append, List.foldl_append]
    rfl
  minKey := by
    rw [hw.minKey, List.head?_append]
    cases es <;> rfl
  maxKey := by simp
  entryCount := by simp
  count_lt := by simpa using hlt

/-- A write that takes in all entries has gathered them, and no block is open. -/
theorem writeEntries_eq_ok {n : ℕ} {opts : WriteOptions} {entries : List (Except BknError SstEntry)}
    {w w' : SstWriter} {done : List SstEntry} (hw : w.Gathered n done)
    (h : writeEntries opts entries w = (.ok (), w')) :
    ∃ es : List SstEntry,
      entries = es.map .ok ∧ w'.Gathered n (done ++ es) ∧ w'.block.raw = [] := by
  induction entries generalizing w done with
  | nil =>
    rw [writeEntries, Effect.zoom_eq_ok] at h
    obtain ⟨block, hfinish, rfl⟩ := h
    obtain ⟨hblock, hraw⟩ := hw.block.finishBlock hfinish
    exact ⟨[], rfl, by rw [List.append_nil]; exact { hw with block := hblock }, hraw⟩
  | cons entry entries ih =>
    cases entry with
    | error e => rw [writeEntries] at h; cases h
    | ok e =>
      rw [writeEntries, Effect.bind_apply_of_ok (Effect.modify_apply ..), Effect.bind_eq_ok] at h
      obtain ⟨_, w₁, hzoom, h⟩ := h
      obtain ⟨block, hpush, rfl⟩ := Effect.zoom_eq_ok.mp hzoom
      rw [Effect.bind_apply_of_ok (Effect.get_apply _), Effect.bind_eq_ok] at h
      obtain ⟨count, w₂, hcount, h⟩ := h
      obtain ⟨hadd, rfl⟩ := Effect.ofExcept_eq_ok.mp hcount
      have hcount : count = done.length + 1 ∧ done.length + 1 < 2 ^ 64 := by
        rw [checkedAdd, hw.entryCount] at hadd
        split at hadd
        next hlt => exact ⟨(Except.ok.inj hadd).symm, hlt⟩
        next => cases hadd
      obtain ⟨rfl, hlt⟩ := hcount
      rw [Effect.bind_apply_of_ok (Effect.modify_apply ..)] at h
      obtain ⟨es, rfl, hall, hraw⟩ := ih (hw.entry hpush hlt) h
      rw [List.append_assoc] at hall
      exact ⟨e :: es, rfl, hall, hraw⟩

/-- **A write that succeeds.** All entries were there; the blocks, the filter, the index and the
footer are at the end of the file, and nothing else has changed. -/
theorem write_eq_ok {i generation : ℕ} {entries : List (Except BknError SstEntry)} {n : ℕ}
    {opts : WriteOptions} {os os' : Os} {h : SstableHandle}
    (hok : write i generation entries n opts os = (.ok h, os')) :
    ∃ (es : List SstEntry) (w : SstWriter), entries = es.map .ok ∧
      writeEntries opts entries { bloom := BloomFilter.new (max n 1) } = (.ok (), w) ∧
      w.Gathered (max n 1) es ∧ w.block.raw = [] ∧
      os'.contents i = os.contents i ++ (w.block.out ++ w.trailer) ∧
      (os'.contents i).length ≤ Os.maxLen ∧
      h = w.handle (os'.contents i) (os.contents i).length generation := by
  rw [write, Effect.bind_eq_ok] at hok
  obtain ⟨base, os₁, hlen, hok⟩ := hok
  obtain ⟨-, rfl, rfl⟩ := Os.fileLen_eq_ok.mp hlen
  rw [Effect.bind_eq_ok] at hok
  obtain ⟨_, os₂, hseek, hok⟩ := hok
  obtain ⟨-, rfl⟩ := Os.call_eq_ok.mp hseek
  split at hok
  next => cases hok
  next =>
    rcases hrun : writeEntries opts entries { bloom := BloomFilter.new (max n 1) } with ⟨res, w⟩
    rw [hrun] at hok
    dsimp only at hok
    cases res with
    | error e =>
      rw [Effect.bind_eq_ok] at hok
      obtain ⟨_, os₃, -, hthrow⟩ := hok
      cases hthrow
    | ok u =>
      obtain ⟨es, hes, hw, hraw⟩ := writeEntries_eq_ok (SstWriter.gathered_empty _) hrun
      rw [Effect.bind_eq_ok] at hok
      obtain ⟨_, os₃, hwrite, hok⟩ := hok
      obtain ⟨-, hle, rfl⟩ := Os.writeWith_eq_ok.mp hwrite
      rw [Effect.bind_eq_ok] at hok
      obtain ⟨_, os₄, hmap, hok⟩ := hok
      obtain ⟨-, rfl⟩ := Os.call_eq_ok.mp hmap
      have hcontents : os'.contents i = os.contents i ++ (w.block.out ++ w.trailer) := by
        cases hok
        rw [Os.contents_pop, Os.contents_setContents_self]
        exact Bytes.writeAt_length ..
      refine ⟨es, w, hes, rfl, hw, hraw, hcontents, ?_, ?_⟩
      · rw [hcontents, List.length_append]
        exact hle
      · cases hok
        rfl

/-! ## What a write hands out -/

theorem SstWriter.Gathered.blocks {n : ℕ} {w : SstWriter} {es : List SstEntry}
    (hw : w.Gathered n es) (hraw : w.block.raw = []) :
    ∃ chunks, chunks.flatten = es ∧ List.Forall₂ (MetaHolds w.block.out) w.block.blocks chunks := by
  obtain ⟨chunks, tail, hes, hblocks, htail, -⟩ := hw.block.split
  obtain rfl := encodeEntries_eq_nil.mp (htail.symm.trans hraw)
  exact ⟨chunks, by simp [hes], hblocks⟩

/-- Entries in closed blocks are short. -/
theorem SstWriter.Gathered.short {n : ℕ} {w : SstWriter} {es : List SstEntry} (hw : w.Gathered n es)
    (hraw : w.block.raw = []) : ∀ e ∈ es, ShortEntry e := by
  obtain ⟨chunks, hflat, hchunks⟩ := hw.blocks hraw
  intro e he
  rw [← hflat] at he
  obtain ⟨chunk, hchunk, he⟩ := List.mem_flatten.mp he
  obtain ⟨m, -, hm⟩ := hchunks.exists_left hchunk
  exact hm.short e he

/-- A handle over the blocks of a finished write holds the entries. -/
theorem SstWriter.Gathered.holds {n : ℕ} {w : SstWriter} {es : List SstEntry} (hw : w.Gathered n es)
    (hraw : w.block.raw = []) (hsorted : Ascending es) {h : SstableHandle} {before after : Bytes}
    (hmap : h.mmap = before ++ (w.block.out ++ after)) (hbase : h.baseOffset = before.length)
    (hlen : h.mmap.length < 2 ^ 64) (hbloom : h.bloom = w.bloom)
    (hblocks : h.blocks = w.block.blocks.map Block.ofMeta) (hcount : h.entryCount = some w.entryCount)
    (hmin : h.minKey = w.minKey.getD []) (hmax : h.maxKey = w.maxKey) : h.Holds es := by
  obtain ⟨chunks, hflat, hchunks⟩ := hw.blocks hraw
  have hwf := BloomFilter.wellFormed_new n
  refine ⟨hsorted, hw.short hraw, ⟨chunks, hflat, ?_⟩, ?_, ?_, ?_, ?_, ?_⟩
  · rw [hblocks]
    exact (stored_of_metaHolds hchunks).imp fun b chunk hs ↦
      SstableHandle.blockHolds_of_stored hmap hbase hlen hs
  · intro e he
    rw [hmin, hw.minKey, he]
    rfl
  · intro e he
    rw [hmax, hw.maxKey, he]
    rfl
  · intro e he
    rw [hbloom, hw.bloom]
    exact BloomFilter.mightContain_insertAll hwf (List.mem_map_of_mem he)
  · intro key
    rw [hbloom, hw.bloom]
    exact (hwf.insertAll _).total key
  · intro k hk
    rw [hcount] at hk
    rw [← hw.entryCount]
    exact (Option.some.inj hk).symm

end Sst
