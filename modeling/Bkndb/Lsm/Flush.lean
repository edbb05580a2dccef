import Bkndb.Lsm.Invariant

/-!
# Flushing

A flush sets the memtable aside, writes it as a table with a manifest and a header, and then puts the
table in its place. The map stays what it was in between: first the memtable that is set aside holds
the entries, then the table does, and the file stands for the same map before and after the header
is written.

## The order of the writes

The table goes behind the log, then the manifest that names it, and both are made durable; then the
header is written into the slot that is not current. Until the header is complete an open finds the
old manifest, and the log is still there: the bytes behind it are taken for a torn frame. So the
file stands for the same map at every moment, whatever call fails.

## Main results

* `beginFlush_cases`, `writeFlush_cases` and `publishFlush_ok`: what each section leaves.
* `Flushing.written`: with the header complete, the image of the file has the new table on top and
  an empty log, and stands for the same map.
-/

open Container Layers

namespace Lsm

variable [Lz4]

/-! ## Setting the memtable aside -/

theorem SnapshotDenotes.setAside {b : LsmStorageBackend} {D : OrdMap Bytes Bytes}
    (h : SnapshotDenotes (snapshot b) D) (generation : ℕ) :
    SnapshotDenotes { snapshot b with
      activeMemtable := ∅
      immutableMemtables := b.state.immutableMemtables ++ [(generation, b.state.activeMemtable)] } D := by
  obtain ⟨tables, hholds, hdenotes⟩ := h
  refine ⟨tables, hholds, ?_⟩
  rw [layers, List.reverse_append, List.reverse_singleton, List.singleton_append, List.map_cons,
    List.cons_append]
  exact denotes_nil_cons.mpr hdenotes

/-- A memtable is set aside, to be written. -/
structure Flushing (s : LsmSystem) (v : Image) (D : OrdMap Bytes Bytes) (memtable : Memtable)
    (generation : ℕ) : Prop where
  disk : OnDisk s v
  stored : v.Denotes D
  live : SnapshotDenotes (snapshot s.backend) D
  books : Books s.backend v
  log : memtable = replayed v.records
  immutables : s.backend.state.immutableMemtables = [(generation, memtable)]
  active : s.backend.state.activeMemtable = ∅
  lower : v.manifest.nextSstableId ≤ generation
  next : s.backend.state.nextSstableId = generation + 1
  next_lt : generation + 1 < 2 ^ 64

/-- **The first section of a flush**: nothing is to be done, or the memtable is set aside. Only a
generation too many ends it. -/
theorem beginFlush_cases {s : LsmSystem} {v : Image} {D : OrdMap Bytes Bytes} (h : Intact s v D)
    (himm : s.backend.state.immutableMemtables = []) :
    (s.backend.state.activeMemtable = ∅ ∧ beginFlush s = (.ok none, s)) ∨
    (∃ memtable generation s', beginFlush s = (.ok (some (memtable, generation)), s') ∧
      s'.os = s.os ∧ s'.backend.container = s.backend.container ∧
      s'.backend.options = s.backend.options ∧ Flushing s' v D memtable generation) ∨
    (2 ^ 64 ≤ s.backend.state.nextSstableId + 1 ∧ ∃ e s', beginFlush s = (.error e, s') ∧
      s'.os = s.os ∧ Intact s' v D) := by
  rw [beginFlush, Effect.bind_apply_of_ok (Effect.get_apply s)]
  by_cases hempty : s.backend.state.activeMemtable.isEmpty = true
  · left
    refine ⟨OrdMap.isEmpty_iff.mp hempty, ?_⟩
    rw [if_pos hempty]
    rfl
  right
  rw [if_neg hempty, Effect.bind_apply_of_ok (modifyState_apply ..)]
  by_cases hlt : s.backend.state.nextSstableId + 1 < 2 ^ 64
  · left
    have hnext : checkedAdd s.backend.state.nextSstableId 1 = .ok (s.backend.state.nextSstableId + 1) :=
      if_pos hlt
    rw [hnext]
    refine ⟨s.backend.state.activeMemtable, s.backend.state.nextSstableId, _, rfl, rfl, rfl, rfl, ?_⟩
    obtain ⟨hseq, hslot, hholds, hrefs, hstart, hle⟩ := h.memory.books himm
    refine ⟨⟨h.disk.contents, h.disk.placed⟩, h.memory.stored, ?_,
      ⟨hseq, hslot, hholds, hrefs, hstart, hle.trans (Nat.le_succ _)⟩, h.memory.active himm, ?_, rfl,
      hle, rfl, hlt⟩
    · exact h.memory.live.setAside s.backend.state.nextSstableId
    · change s.backend.state.immutableMemtables ++ [_] = _
      rw [himm]
      rfl
  · right
    have hnext : checkedAdd s.backend.state.nextSstableId 1 =
      .error (.panic "attempt to add with overflow") := if_neg hlt
    rw [hnext]
    refine ⟨not_lt.mp hlt, _, _, rfl, rfl, ⟨h.disk.contents, h.disk.placed⟩, h.memory.stored, ?_, ?_, ?_⟩
    · exact h.memory.live.setAside s.backend.state.nextSstableId
    · intro hnil
      exact absurd hnil (List.append_ne_nil_of_right_ne_nil _ (List.cons_ne_nil _ _))
    · intro hnil
      exact absurd hnil (List.append_ne_nil_of_right_ne_nil _ (List.cons_ne_nil _ _))

/-! ## Writing the table

The three writes are taken apart one after the other. Each of them is done, or it leaves a part of
its bytes and ends the section. -/

variable [BloomSizing]

/-- The entries of a memtable, as a source. -/
abbrev flushEntries (memtable : Memtable) : List (Except BknError SstEntry) :=
  memtable.entries.map .ok

/-- The table that a flush writes, when it begins at the end of a file of this length. -/
def flushTable (b : LsmStorageBackend) (memtable : Memtable) : Bytes :=
  Sst.image (writeOptions b.options) (flushEntries memtable) memtable.size

/-- The manifest that goes behind it. -/
def flushManifest (b : LsmStorageBackend) (len : ℕ) (memtable : Memtable) (generation : ℕ) : Manifest :=
  placeManifest b.state.nextSstableId
    (b.state.sstables.map sstableRef ++ [⟨generation, len, (flushTable b memtable).length⟩])
    (len + (flushTable b memtable).length)

/-- Everything that a flush writes behind the log. -/
def flushImage (b : LsmStorageBackend) (len : ℕ) (memtable : Memtable) (generation : ℕ) : Bytes :=
  flushTable b memtable ++ (flushManifest b len memtable generation).encode

/-- The format takes the entries of the memtable. -/
def FlushAccepts (b : LsmStorageBackend) (memtable : Memtable) : Prop :=
  Sst.Accepts (writeOptions b.options) (flushEntries memtable) memtable.size

instance (b : LsmStorageBackend) (memtable : Memtable) : Decidable (FlushAccepts b memtable) :=
  inferInstanceAs (Decidable (Sst.Accepts _ _ _))

omit [Lz4] [BloomSizing] in
theorem walRegionStart_placeManifest (next : ℕ) (refs : List SstableRef) (offset : ℕ) :
    (placeManifest next refs offset).walRegionStart =
      offset + (placeManifest next refs offset).encode.length := by
  rw [placeManifest, Manifest.length_encode, Manifest.length_encode]

/-- With the table and the manifest behind the log, the file lacks nothing but the header. -/
theorem Flushing.headerReady {s : LsmSystem} {v : Image} {D : OrdMap Bytes Bytes}
    {memtable : Memtable} {generation : ℕ} (h : Flushing s v D memtable generation)
    (htable : TableAt (v.file ++ flushTable s.backend memtable)
      ⟨generation, v.file.length, (flushTable s.backend memtable).length⟩ memtable)
    (hle : (v.file ++ flushImage s.backend v.file.length memtable generation).length ≤ Os.maxLen)
    (hseq : v.header.seq + 1 < 2 ^ 64) :
    HeaderReady (v.file ++ flushImage s.backend v.file.length memtable generation) v.header.seq
      v.header.slot (v.file.length + (flushTable s.backend memtable).length)
      (flushManifest s.backend v.file.length memtable generation) (v.tables ++ [memtable]) := by
  set more := flushImage s.backend v.file.length memtable generation with hmore
  set m := flushManifest s.backend v.file.length memtable generation with hm
  have hrefs : m.sstables = v.manifest.sstables ++
      [⟨generation, v.file.length, (flushTable s.backend memtable).length⟩] := by
    rw [← h.books.refs]
    rfl
  have hbase : v.base.length ≤ v.file.length := by
    rw [Image.file, List.length_append]
    exact Nat.le_add_right ..
  have hbody := v.bodyStart_le_base
  have hfile : v.file ++ more = v.base ++ (v.body ++ v.tail ++ more) := by
    rw [Image.file]
    simp only [List.append_assoc]
  have hslot : slotBytes (v.file ++ more) v.header.slot = slotBytes v.base v.header.slot := by
    have hle' := v.slot_le
    rw [bodyStart] at hbody
    rw [hfile]
    refine Bytes.slice_append_left ?_ _
    rcases one_sub_slot hle' with ⟨hs, -⟩ | ⟨hs, -⟩ <;> rw [hs] <;> omega
  refine ⟨v.slot_le, hseq, ?_, hbody.trans (hbase.trans (Nat.le_add_right ..)), ?_, ?_, hle, ?_, ?_, ?_, ?_⟩
  · rw [hslot]
    exact .inr ⟨v.header, v.current, Nat.lt_succ_self _⟩
  · refine ⟨v.file ++ flushTable s.backend memtable, ?_, List.length_append⟩
    rw [hmore, flushImage, List.append_assoc]
  · rw [hm, flushManifest, walRegionStart_placeManifest, hmore, flushImage, List.length_append,
      List.length_append]
    exact Nat.add_assoc ..
  · change s.backend.state.nextSstableId < 2 ^ 64
    rw [h.next]
    exact h.next_lt
  · rw [hrefs]
    have hold : ∀ r t, TableAt v.base r t → TableAt (v.file ++ more) r t := fun r t ht ↦
      ht.congr (by rw [hfile, List.length_append]; exact Nat.le_add_right ..)
        (by rw [hfile]; exact Bytes.slice_append_left ht.inside _)
    have hsplit : v.file ++ more = v.file ++ flushTable s.backend memtable ++ m.encode := by
      rw [hmore, flushImage, List.append_assoc]
    have hnew : TableAt (v.file ++ more)
        ⟨generation, v.file.length, (flushTable s.backend memtable).length⟩ memtable :=
      htable.congr (by rw [hsplit]; simp only [List.length_append]; omega)
        (by rw [hsplit]; exact Bytes.slice_append_left htable.inside _)
    exact List.rel_append (v.refs.imp hold) (.cons hnew .nil)
  · rw [hrefs, List.pairwise_append]
    refine ⟨v.ascending, List.pairwise_singleton .., fun r hr r' hr' ↦ ?_⟩
    obtain rfl := List.mem_singleton.mp hr'
    exact (v.ids r hr).trans_le h.lower
  · intro r hr
    change r.generation < s.backend.state.nextSstableId
    rw [h.next]
    rw [hrefs] at hr
    rcases List.mem_append.mp hr with hr | hr
    · exact ((v.ids r hr).trans_le h.lower).trans (Nat.lt_succ_self _)
    · obtain rfl := List.mem_singleton.mp hr
      exact Nat.lt_succ_self _

/-- The table, the manifest and the header are written; in memory the memtable still stands. -/
structure Written (s : LsmSystem) (v : Image) (D : OrdMap Bytes Bytes) (generation : ℕ)
    (handle : SstableHandle) (manifest : Manifest) : Prop where
  disk : OnDisk s v
  stored : v.Denotes D
  live : SnapshotDenotes (snapshot s.backend) D
  clean : v.Clean
  records : v.records = []
  manifest : v.manifest = manifest
  seq : s.backend.container.headerSeq = v.header.seq
  slot : s.backend.container.headerSlot = v.header.slot
  holds : List.Forall₂ (fun h t ↦ SstableHandle.Holds h (OrdMap.entries t))
    (s.backend.state.sstables ++ [handle]) v.tables
  refs : (s.backend.state.sstables ++ [handle]).map sstableRef = v.manifest.sstables
  next : v.manifest.nextSstableId = s.backend.state.nextSstableId
  memtable : ∃ memtable, s.backend.state.immutableMemtables = [(generation, memtable)]
  active : s.backend.state.activeMemtable = ∅
  durable : (s.os.inodes s.backend.container.file).durable =
    s.os.contents s.backend.container.file

omit [BloomSizing] in
theorem Flushing.denotes {s : LsmSystem} {v : Image} {D : OrdMap Bytes Bytes} {memtable : Memtable}
    {generation : ℕ} (h : Flushing s v D memtable generation) :
    Layers.Denotes LsmValue.live
      ((replayed []).entries :: (v.tables ++ [memtable]).reverse.map OrdMap.entries) D := by
  have hstored := h.stored
  rw [Image.Denotes, Image.layers, ← h.log] at hstored
  rw [List.reverse_append, List.reverse_singleton, List.singleton_append, List.map_cons]
  exact denotes_nil_cons.mpr hstored

omit [BloomSizing] in
/-- With the header complete the flush is written. -/
theorem Flushing.written {s : LsmSystem} {v : Image} {D : OrdMap Bytes Bytes} {memtable : Memtable}
    {generation offset : ℕ} {f : Bytes} {m : Manifest} (h : Flushing s v D memtable generation)
    (hready : HeaderReady f v.header.seq v.header.slot offset m (v.tables ++ [memtable]))
    {handle : SstableHandle} (hholds : handle.Holds memtable.entries)
    (hrefs : m.sstables = (s.backend.state.sstables ++ [handle]).map sstableRef)
    (hnext : m.nextSstableId = s.backend.state.nextSstableId) {os' : Os}
    (htouches : s.os.Touches s.backend.container.file os')
    (hcontents : os'.contents s.backend.container.file =
      tornHeader f (HeaderReady.write v.header.seq v.header.slot offset m) headerSlotLen)
    (hdurable : (os'.inodes s.backend.container.file).durable =
      os'.contents s.backend.container.file) :
    Written
      { os := os', backend := { s.backend with container := { s.backend.container with
          headerSeq := v.header.seq + 1, headerSlot := 1 - v.header.slot } } }
      (hready.image headerSlotLen hready.mixed_eq) D generation handle m where
  disk := ⟨by
    rw [Image.file]
    change _ = tornHeader _ _ _ ++ ([] ++ [])
    rw [List.append_nil, List.append_nil]
    exact hcontents, h.disk.placed.touches htouches⟩
  stored := h.denotes
  live := h.live
  clean := rfl
  records := rfl
  manifest := rfl
  seq := rfl
  slot := rfl
  holds := List.rel_append h.books.holds (.cons hholds .nil)
  refs := hrefs.symm
  next := hnext
  memtable := ⟨memtable, h.immutables⟩
  active := h.active
  durable := hdurable

theorem Flushing.writeTable_cases {s : LsmSystem} {v : Image} {D : OrdMap Bytes Bytes}
    {memtable : Memtable} {generation : ℕ} (h : Flushing s v D memtable generation)
    {r : Except BknError SstableHandle} {os' : Os}
    (hrun : Sst.write s.backend.container.file generation (flushEntries memtable) memtable.size
      (writeOptions s.backend.options) s.os = (r, os')) :
    (∃ handle, r = .ok handle ∧
      os'.contents s.backend.container.file = v.file ++ flushTable s.backend memtable ∧
      sstableRef handle = ⟨generation, v.file.length, (flushTable s.backend memtable).length⟩ ∧
      handle.baseOffset + handle.blobLen = v.file.length + (flushTable s.backend memtable).length ∧
      handle.Holds memtable.entries ∧ TableAt (v.file ++ flushTable s.backend memtable)
        ⟨generation, v.file.length, (flushTable s.backend memtable).length⟩ memtable) ∨
    ∃ e k, r = .error e ∧ os'.contents s.backend.container.file =
        v.file ++ (flushImage s.backend v.file.length memtable generation).take k ∧
      (os'.failed = true ∨ ¬FlushAccepts s.backend memtable) := by
  have hbody : bodyStart ≤ (s.os.contents s.backend.container.file).length := by
    rw [h.disk.contents, Image.file, List.length_append]
    exact v.bodyStart_le_base.trans (Nat.le_add_right ..)
  cases r with
  | error e =>
    right
    obtain ⟨⟨k, hk⟩, hwhy⟩ := Sst.write_eq_error hrun
    refine ⟨e, min k (flushTable s.backend memtable).length, rfl, ?_, hwhy⟩
    rw [hk, h.disk.contents, flushImage, List.take_append_of_le_length (Nat.min_le_right ..),
      ← List.take_eq_take_min]
    rfl
  | ok handle =>
    left
    obtain ⟨hcontents, -, hbase, hend, hgen, hholds, htable⟩ := Sst.write_table hrun hbody
    change os'.contents _ = s.os.contents _ ++ flushTable s.backend memtable at hcontents
    rw [h.disk.contents] at hcontents hbase
    have hlen : handle.blobLen = (flushTable s.backend memtable).length := by
      rw [hcontents, List.length_append, hbase] at hend
      omega
    have href : sstableRef handle =
        ⟨generation, v.file.length, (flushTable s.backend memtable).length⟩ := by
      rw [sstableRef, hgen, hbase, hlen]
    rw [href, hcontents] at htable
    exact ⟨handle, rfl, hcontents, href, by rw [hbase, hlen], hholds, htable⟩

omit [Lz4] [BloomSizing] in
theorem writeSynced_cases {i offset : ℕ} {b : Bytes} {os os' : Os} {r : Except BknError Unit}
    (hrun : (Container.writeBlobAt i offset b >>= fun _ ↦ Os.sync ioErr i) os = (r, os'))
    (hoffset : offset = (os.contents i).length) :
    (r = .ok () ∧ os'.contents i = os.contents i ++ b ∧ (os'.contents i).length ≤ Os.maxLen) ∨
      ∃ e k, r = .error e ∧ os'.contents i = os.contents i ++ b.take k ∧ os'.failed = true := by
  rcases hblob : Container.writeBlobAt i offset b os with ⟨e | u, os₁⟩
  · rw [Effect.bind_apply_of_error hblob] at hrun
    cases hrun
    obtain ⟨⟨⟩, -⟩ | hfailed := Container.writeBlobAt_cases hblob hoffset
    exact .inr hfailed
  · rw [Effect.bind_apply_of_ok hblob] at hrun
    obtain ⟨-, hcontents, hle⟩ | ⟨_, _, ⟨⟩, -⟩ := Container.writeBlobAt_cases hblob hoffset
    have hsame := Os.contents_sync ioErr i i os₁
    rw [hrun] at hsame
    cases r with
    | ok u => exact .inl ⟨rfl, hsame.trans hcontents, hsame ▸ hle⟩
    | error e =>
      refine .inr ⟨e, b.length, rfl, ?_, ?_⟩
      · rw [List.take_length]
        exact hsame.trans hcontents
      · rw [Os.sync_eq_error hrun]
        rfl

/-- **The second section of a flush.** It ends with the header complete; or something is behind the
log and the header as it was; or everything is there and the header torn. -/
theorem writeFlush_cases {s s' : LsmSystem} {v : Image} {D : OrdMap Bytes Bytes} {memtable : Memtable}
    {generation : ℕ} (h : Flushing s v D memtable generation)
    {r : Except BknError (SstableHandle × Manifest)}
    (hrun : writeFlush memtable generation s = (r, s')) :
    s.os.Touches s.backend.container.file s'.os ∧
    ((∃ handle manifest v', r = .ok (handle, manifest) ∧ s'.backend.state = s.backend.state ∧
        s'.backend.options = s.backend.options ∧
        s'.backend.container.file = s.backend.container.file ∧
        Written s' v' D generation handle manifest) ∨
      (∃ e k, r = .error e ∧ s'.backend = s.backend ∧
        s'.os.contents s.backend.container.file =
          v.file ++ (flushImage s.backend v.file.length memtable generation).take k ∧
        (s'.os.failed = true ∨ ¬FlushAccepts s.backend memtable ∨ 2 ^ 64 ≤ v.header.seq + 1)) ∨
      ∃ e n, r = .error e ∧ s'.backend = s.backend ∧
        s'.os.contents s.backend.container.file =
          tornHeader (v.file ++ flushImage s.backend v.file.length memtable generation)
            (nextWrite v.header (v.file.length + (flushTable s.backend memtable).length)
              (flushManifest s.backend v.file.length memtable generation).encode) n ∧
        HeaderReady (v.file ++ flushImage s.backend v.file.length memtable generation) v.header.seq
          v.header.slot (v.file.length + (flushTable s.backend memtable).length)
          (flushManifest s.backend v.file.length memtable generation) (v.tables ++ [memtable]) ∧
        s'.os.failed = true ∧ ∀ a ∈ s.os.plan.take 7, a = Answer.done) := by
  set i := s.backend.container.file with hi
  rw [writeFlush, Effect.bind_apply_of_ok (Effect.get_apply s)] at hrun
  dsimp only at hrun
  rw [← hi] at hrun
  -- the table
  have ht₁ := Sst.steps_write i generation (flushEntries memtable) memtable.size
    (writeOptions s.backend.options) s.os
  rcases hwrite : Sst.write i generation (flushEntries memtable) memtable.size
    (writeOptions s.backend.options) s.os with ⟨res, os₁⟩
  rw [hwrite] at ht₁
  obtain ⟨handle, rfl, hc₁, href, hoffset, hholds, htable⟩ | ⟨e, k, rfl, hk, hwhy⟩ :=
    h.writeTable_cases hwrite
  swap
  · rw [bind_io_of_error hwrite] at hrun
    cases hrun
    exact ⟨ht₁, .inr (.inl ⟨e, k, rfl, rfl, hk, hwhy.imp_right .inl⟩)⟩
  have hmanifest : placeManifest s.backend.state.nextSstableId
      (s.backend.state.sstables.map sstableRef ++ [sstableRef handle])
      (handle.baseOffset + handle.blobLen) =
        flushManifest s.backend v.file.length memtable generation := by
    rw [href, hoffset, flushManifest]
  rw [bind_io_of_ok hwrite, hmanifest, hoffset] at hrun
  set m := flushManifest s.backend v.file.length memtable generation with hm
  have himage : v.file ++ flushImage s.backend v.file.length memtable generation =
      v.file ++ flushTable s.backend memtable ++ m.encode := by rw [flushImage, List.append_assoc]
  -- the manifest, and the sync before the header
  have hbehind := Os.steps_bind (Container.steps_writeBlobAt i
    (v.file.length + (flushTable s.backend memtable).length) m.encode)
    (fun _ ↦ Os.steps_sync ioErr i) os₁
  rcases hsynced : (Container.writeBlobAt i (v.file.length + (flushTable s.backend memtable).length)
    m.encode >>= fun _ ↦ Os.sync ioErr i) os₁ with ⟨res, os₂⟩
  rw [hsynced] at hbehind
  obtain ⟨rfl, hc₂, hle⟩ | ⟨e, k, rfl, hk, hfailed⟩ :=
    writeSynced_cases hsynced (by rw [hc₁, List.length_append])
  swap
  · rw [bind_io_io_of_error hsynced] at hrun
    cases hrun
    refine ⟨ht₁.trans hbehind, .inr (.inl ⟨e, (flushTable s.backend memtable).length + k, rfl, rfl,
      ?_, .inl hfailed⟩)⟩
    change os₂.contents i = _
    rw [hk, hc₁, flushImage, List.take_length_add_append, List.append_assoc]
  rw [bind_io_io_of_ok hsynced] at hrun
  rw [hc₁, ← himage] at hc₂
  rw [hc₂] at hle
  -- the header
  have ht : s.os.Touches i _ := (ht₁.trans hbehind).trans (Container.steps_writeHeader i
    v.header.seq v.header.slot (v.file.length + (flushTable s.backend memtable).length) m.encode os₂)
  rw [h.books.seq, h.books.slot] at hrun
  rcases hheader : Container.writeHeader i v.header.seq v.header.slot
    (v.file.length + (flushTable s.backend memtable).length) m.encode os₂ with ⟨res, os₃⟩
  rw [hheader] at ht
  obtain ⟨rfl, hseq, hc₃, hdurable⟩ | ⟨e, n, rfl, hseq, hc₃, hfailed⟩ | ⟨e, rfl, hseq, hc₃⟩ :=
    Container.writeHeader_cases hheader
  · have hready := h.headerReady htable hle hseq
    rw [bind_io_of_ok hheader] at hrun
    cases hrun
    refine ⟨ht, .inl ⟨handle, m, _, rfl, rfl, rfl, rfl, h.written hready hholds ?_ rfl ht ?_ ?_⟩⟩
    · rw [List.map_append, List.map_singleton, href]
      rfl
    · rw [hc₃, hc₂]
    · exact hdurable
  · rw [bind_io_of_error hheader] at hrun
    cases hrun
    refine ⟨ht, .inr (.inr ⟨e, n, rfl, rfl, ?_, h.headerReady htable hle hseq, hfailed, ?_⟩)⟩
    · change os₃.contents i = _
      rw [hc₃, hc₂]
      rfl
    · -- the table, the manifest and the sync are seven calls
      have huses := (Sst.uses_write i generation (flushEntries memtable) memtable.size
        (writeOptions s.backend.options)).bind fun _ ↦ (Container.uses_writeBlobAt i
          (v.file.length + (flushTable s.backend memtable).length) m.encode).bind fun _ ↦
            Os.uses_sync ioErr i
      exact (huses s.os () os₂ (by rw [Effect.bind_apply_of_ok hwrite, hsynced])).2
  · rw [bind_io_of_error hheader] at hrun
    cases hrun
    refine ⟨ht, .inr (.inl ⟨e, (flushImage s.backend v.file.length memtable generation).length, rfl,
      rfl, ?_, .inr (.inr hseq)⟩)⟩
    change os₃.contents i = _
    rw [hc₃, hc₂, List.take_length]

/-! ## Publishing the table -/

omit [BloomSizing] in
/-- **The last section of a flush**: the table takes the place of the memtable, and the books are
those of the file again. -/
theorem publishFlush_ok {s : LsmSystem} {v : Image} {D : OrdMap Bytes Bytes} {generation : ℕ}
    {handle : SstableHandle} {manifest : Manifest} (h : Written s v D generation handle manifest) :
    ∃ due s', publishFlush generation handle manifest s = (.ok due, s') ∧ s'.os = s.os ∧
      s'.backend.container = s.backend.container ∧ s'.backend.options = s.backend.options ∧
      s'.backend.state.nextSstableId = s.backend.state.nextSstableId ∧
      s'.backend.state.activeMemtable = ∅ ∧ Intact s' v D ∧ Settled s' v := by
  refine ⟨_, _, rfl, rfl, rfl, rfl, rfl, h.active, ?_, ?_, h.clean⟩
  · refine ⟨⟨h.disk.contents, h.disk.placed⟩, InMemory.of_books h.stored ?_ ?_ ?_⟩
    · obtain ⟨memtable, himm⟩ := h.memtable
      change List.eraseP _ s.backend.state.immutableMemtables = []
      rw [himm, List.eraseP_cons_of_pos (by simp)]
    · change s.backend.state.activeMemtable = _
      rw [h.active, h.records]
      rfl
    · refine ⟨h.seq, h.slot, h.holds, h.refs, ?_, ?_⟩
      · change manifest.walRegionStart = _
        rw [h.manifest]
      · exact h.next.le
  · obtain ⟨memtable, himm⟩ := h.memtable
    change List.eraseP _ s.backend.state.immutableMemtables = []
    rw [himm, List.eraseP_cons_of_pos (by simp)]

end Lsm
