import Bkndb.Lsm.Flush

/-!
# When no call fails

A write goes through when no call fails and the file has room for it. For a table the format has to
take the entries as well, and for a header the next sequence number has to exist.

`FlushFits` is about numbers only: the lengths of the table and the manifest against the largest
file, and the counter of headers. With it and no failing call, the cases of a write that fails are
ruled out one by one.
-/

open Container

namespace Sst

variable [Lz4] [BloomSizing]

/-- A table that the format takes and the file has room for is written. -/
theorem write_of_quiet {i generation n : ℕ} {entries : List (Except BknError SstEntry)}
    {opts : WriteOptions} {os : Os} (hq : os.Quiet) (hacc : Accepts opts entries n)
    (hroom : (os.contents i).length + (image opts entries n).length ≤ Os.maxLen) :
    ∃ h, write i generation entries n opts os =
      (.ok h, os.setContents i (os.contents i ++ image opts entries n)) := by
  obtain ⟨hsize, hok⟩ := hacc
  rcases hrun : writeEntries opts entries { bloom := BloomFilter.new (max n 1) } with ⟨res, w⟩
  rw [hrun] at hok
  obtain rfl : res = .ok () := hok
  have himage : image opts entries n = w.block.out ++ w.trailer := by rw [image, hrun]
  rw [himage] at hroom ⊢
  rw [write, Effect.bind_apply_of_ok (hq.fileLen ..), Effect.bind_apply_of_ok (hq.call _),
    if_neg (not_le.mpr hsize), hrun]
  dsimp only
  rw [Os.writeBuffered, Effect.bind_apply_of_ok (hq.writeWith hroom ..), Bytes.writeAt_length,
    Effect.bind_apply_of_ok ((hq.setContents ..).call _)]
  exact ⟨_, rfl⟩

theorem holds_of_write {i generation n : ℕ} {t : Memtable} {opts : WriteOptions} {os os' : Os}
    {h : SstableHandle} (hok : write i generation (t.entries.map .ok) n opts os = (.ok h, os')) :
    h.Holds t.entries := by
  obtain ⟨es, w, hes, -, hw, hraw, hcontents, hle, rfl⟩ := write_eq_ok hok
  obtain rfl : t.entries = es := List.map_injective_iff.mpr (fun _ _ h ↦ Except.ok.inj h) hes
  exact hw.holds hraw t.sorted hcontents rfl (lt_of_le_of_lt hle (by decide)) rfl rfl rfl rfl rfl

end Sst

namespace Container

theorem writeBlobAt_of_quiet {i : ℕ} {b : Bytes} {os : Os} (hq : os.Quiet)
    (hroom : (os.contents i).length + b.length ≤ Os.maxLen) :
    writeBlobAt i (os.contents i).length b os = (.ok (), os.setContents i (os.contents i ++ b)) := by
  rw [writeBlobAt, Effect.bind_apply_of_ok (hq.call _), Os.writeAll, hq.writeWith hroom,
    Bytes.writeAt_length]

theorem writeHeader_of_quiet {i prevSeq prevSlot offset : ℕ} {m : Manifest} {os : Os}
    (hq : os.Quiet) (hseq : prevSeq + 1 < 2 ^ 64) :
    ∃ os', writeHeader i prevSeq prevSlot offset m.encode os =
        (.ok (prevSeq + 1, 1 - prevSlot), os') ∧ os'.Quiet := by
  have hnext : nextHeader prevSeq prevSlot offset m.encode =
      .ok (HeaderReady.write prevSeq prevSlot offset m) := by
    rw [nextHeader, checkedAdd, if_pos hseq]
    rfl
  have hroom : (HeaderReady.write prevSeq prevSlot offset m).offset +
      (HeaderReady.write prevSeq prevSlot offset m).bytes.length ≤ Os.maxLen := by
    have hslot : (HeaderReady.write prevSeq prevSlot offset m).slot ≤ 1 := Nat.sub_le ..
    have hlen : (HeaderReady.write prevSeq prevSlot offset m).bytes.length = headerSlotLen :=
      length_encodeSlot ..
    have hmax : Os.maxLen = 2 ^ 63 - 1 := rfl
    rw [hlen, HeaderWrite.offset, headerSlotLen]
    omega
  rw [writeHeader, hnext, Effect.bind_apply_of_ok (Effect.ofExcept_apply _ os),
    Effect.bind_apply_of_ok (hq.call _), Os.writeAll,
    Effect.bind_apply_of_ok (hq.writeWith hroom ..),
    Effect.bind_apply_of_ok ((hq.setContents ..).sync ..)]
  exact ⟨_, rfl, hq⟩

end Container

namespace Wal

theorem append_of_quiet {i : ℕ} {r : WalRecord} {os : Os} (hq : os.Quiet) (hfits : r.Fits)
    (hroom : (os.contents i).length + (frame r.serialize).length ≤ Os.maxLen) :
    ∃ os', append i r os = (.ok (), os') ∧ os'.Quiet := by
  rw [append, encodeFrame_of_fits hfits, Effect.bind_apply_of_ok (Effect.ofExcept_apply _ os),
    Effect.bind_apply_of_ok (hq.call _), Effect.bind_apply_of_ok (Effect.get_apply os), Os.writeAll,
    Effect.bind_apply_of_ok (hq.writeWith hroom ..), (hq.setContents ..).sync]
  exact ⟨_, rfl, hq⟩

end Wal

namespace Lsm

variable [Lz4] [BloomSizing]

/-- Nothing is in the way of a flush: the format takes the entries, the file has room for the table
and the manifest, and there is a next sequence number. -/
structure FlushFits (s : LsmSystem) (memtable : Memtable) (generation : ℕ) : Prop where
  accepts : FlushAccepts s.backend memtable
  room : (s.os.contents s.backend.container.file).length + (flushImage s.backend
    (s.os.contents s.backend.container.file).length memtable generation).length ≤ Os.maxLen
  seq : s.backend.container.headerSeq + 1 < 2 ^ 64

instance (s : LsmSystem) (memtable : Memtable) (generation : ℕ) :
    Decidable (FlushFits s memtable generation) :=
  decidable_of_iff (FlushAccepts s.backend memtable ∧
      (s.os.contents s.backend.container.file).length + (flushImage s.backend
        (s.os.contents s.backend.container.file).length memtable generation).length ≤ Os.maxLen ∧
      s.backend.container.headerSeq + 1 < 2 ^ 64)
    ⟨fun ⟨h, h', h''⟩ ↦ ⟨h, h', h''⟩, fun ⟨h, h', h''⟩ ↦ ⟨h, h', h''⟩⟩

/-- A flush that nothing is in the way of is written. -/
theorem writeFlush_of_quiet {s : LsmSystem} {memtable : Memtable} {generation : ℕ}
    (hq : s.os.Quiet) (h : FlushFits s memtable generation) :
    ∃ r s', writeFlush memtable generation s = (.ok r, s') ∧ s'.os.Quiet := by
  set i := s.backend.container.file with hi
  have hroom := h.room
  rw [← hi, flushImage, List.length_append] at hroom
  obtain ⟨handle, hwrite⟩ := @Sst.write_of_quiet _ _ i generation memtable.size
    (flushEntries memtable) (writeOptions s.backend.options) s.os hq h.accepts
    ((Nat.add_le_add_left (Nat.le_add_right ..) _).trans hroom)
  change Sst.write i generation _ _ _ s.os =
    (.ok handle, s.os.setContents i (s.os.contents i ++ flushTable s.backend memtable)) at hwrite
  set os₁ := s.os.setContents i (s.os.contents i ++ flushTable s.backend memtable) with hos₁
  have hc₁ : (os₁.contents i).length =
      (s.os.contents i).length + (flushTable s.backend memtable).length := by
    rw [hos₁, Os.contents_setContents_self, List.length_append]
  obtain ⟨_, w, -, hrun, hw, -, hcontents, -, hhandle⟩ := Sst.write_eq_ok hwrite
  have hbase : handle.baseOffset = (s.os.contents i).length := by
    rw [hhandle]
    rfl
  have hlen : handle.blobLen = (flushTable s.backend memtable).length := by
    rw [hhandle, ← hw.length_blob]
    rw [flushTable, Sst.image, hrun]
  have hgen : handle.generation = generation := by
    rw [hhandle]
    rfl
  rw [writeFlush, Effect.bind_apply_of_ok (Effect.get_apply s)]
  dsimp only
  rw [← hi, bind_io_of_ok hwrite]
  have hmanifest : placeManifest s.backend.state.nextSstableId
      (s.backend.state.sstables.map sstableRef ++ [sstableRef handle])
      (handle.baseOffset + handle.blobLen) =
        flushManifest s.backend (s.os.contents i).length memtable generation := by
    rw [sstableRef, hgen, hbase, hlen, flushManifest]
  rw [hmanifest, hbase, hlen]
  set m := flushManifest s.backend (s.os.contents i).length memtable generation with hm
  have hblob : Container.writeBlobAt i
      ((s.os.contents i).length + (flushTable s.backend memtable).length) m.encode os₁ =
        (.ok (), os₁.setContents i (os₁.contents i ++ m.encode)) := by
    rw [← hc₁]
    exact Container.writeBlobAt_of_quiet hq (by rw [hc₁]; omega)
  have hsync := (show (os₁.setContents i (os₁.contents i ++ m.encode)).Quiet from hq).sync ioErr i
  rw [bind_io_of_ok hblob, bind_io_of_ok hsync]
  obtain ⟨os₄, hheader, hq₄⟩ := @Container.writeHeader_of_quiet i s.backend.container.headerSeq
    s.backend.container.headerSlot ((s.os.contents i).length + (flushTable s.backend memtable).length)
    m ((os₁.setContents i (os₁.contents i ++ m.encode)).setInode i
      ⟨(os₁.setContents i (os₁.contents i ++ m.encode)).contents i,
        (os₁.setContents i (os₁.contents i ++ m.encode)).contents i⟩) hq h.seq
  rw [bind_io_of_ok hheader]
  exact ⟨_, _, rfl, hq₄⟩

/-- A flush that is written has put its table into a file that keeps what it holds, and has left the
state alone. -/
theorem writeFlush_eq_ok {s s' : LsmSystem} {memtable : Memtable} {generation : ℕ}
    {handle : SstableHandle} {manifest : Manifest}
    (h : writeFlush memtable generation s = (.ok (handle, manifest), s')) :
    handle.Holds memtable.entries ∧ s'.backend.state = s.backend.state ∧
      s'.backend.path = s.backend.path ∧ s'.backend.options = s.backend.options := by
  rw [writeFlush, Effect.bind_apply_of_ok (Effect.get_apply s)] at h
  dsimp only at h
  rcases hwrite : Sst.write s.backend.container.file generation (memtable.entries.map .ok)
    memtable.size (writeOptions s.backend.options) s.os with ⟨e | handle', os₁⟩
  · rw [bind_io_of_error hwrite] at h
    cases h
  rw [bind_io_of_ok hwrite, Effect.bind_eq_ok] at h
  obtain ⟨_, s₂, hblob, h⟩ := h
  obtain ⟨_, -, rfl⟩ := Effect.zoom_eq_ok.mp hblob
  rw [Effect.bind_eq_ok] at h
  obtain ⟨_, s₃, hsync, h⟩ := h
  obtain ⟨_, -, rfl⟩ := Effect.zoom_eq_ok.mp hsync
  rw [Effect.bind_eq_ok] at h
  obtain ⟨⟨seq, slot⟩, s₄, hheader, h⟩ := h
  obtain ⟨_, -, rfl⟩ := Effect.zoom_eq_ok.mp hheader
  cases h
  exact ⟨Sst.holds_of_write hwrite, rfl, rfl, rfl⟩

end Lsm
