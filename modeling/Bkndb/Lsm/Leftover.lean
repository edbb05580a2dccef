import Bkndb.Lsm.Flush

/-!
# What failed writes leave in the file

An append or a flush that fails part way leaves bytes behind the log, and a header that was cut
short may be in the slot that is not current. The file still stands for the same map as long as
none of this is mistaken for something that was written on purpose: no part of a table or a
manifest reads as a frame of the log, and no part of a header over an older one as a valid header.

## What a reader could mistake

* A part of a frame is too short to be one, so recovery cuts the log there.
* A part of a table or of a manifest stands where a frame would begin. It is arbitrary data, and
  might read as a frame with a matching checksum.
* A part of a header over an older one might have a matching checksum.

The last two cannot be excluded, only seen to be unlikely, so `Unmistakable` asks for it, of the
bytes that are written and not of what happens to them.
-/

open Container Layers

namespace Container

/-- Where the frames of the log end, as an open finds it. -/
def logEnd (file : Bytes) : Option ℕ := do
  let slot ← (readHeader file).toOption.join
  let bytes ← (readManifest file slot).toOption
  let manifest ← Manifest.decode bytes
  return (Wal.replayFrom file manifest.walRegionStart).2

/-- The frames of the log reach to the end of the file. -/
def LogClean (file : Bytes) : Prop := logEnd file = some file.length

instance (file : Bytes) : Decidable (LogClean file) := inferInstanceAs (Decidable (_ = _))

/-- What is behind the frames of the log. -/
def logTail (file : Bytes) : Bytes := file.drop ((logEnd file).getD file.length)

end Container

instance decidableSuperseded (seq slot : ℕ) (buf : Bytes) : Decidable (Superseded seq slot buf) :=
  match h : decodeSlot slot buf with
  | .ok none => .isTrue (.inl h)
  | .ok (some b) => decidable_of_iff (b.seq < seq) (by simp [Superseded, h])
  | .error e => .isFalse (by simp [Superseded, h])

namespace Image

variable [Lz4]

theorem logEnd_file (v : Image) : logEnd v.file = some (v.base.length + v.body.length) := by
  rw [logEnd, v.readHeader_file]
  change ((readManifest v.file v.header).toOption >>= _) = _
  rw [v.readManifest_file]
  change (Manifest.decode v.manifest.encode >>= _) = _
  rw [Manifest.decode_encode v.valid]
  change some (Wal.replayFrom v.file v.manifest.walRegionStart).2 = _
  rw [v.replayFrom_file, v.start]

theorem logTail_file (v : Image) : logTail v.file = v.tail := by
  rw [logTail, v.logEnd_file, Option.getD_some, file, ← List.append_assoc,
    List.drop_left' List.length_append]

theorem logClean_file_iff (v : Image) : LogClean v.file ↔ v.Clean := by
  rw [LogClean, v.logEnd_file, Option.some_inj, file, List.length_append, List.length_append, Clean,
    ← List.length_eq_zero_iff]
  omega

end Image

namespace Lsm

variable [Lz4]

/-! ## A failed append

The exception is an append whose frame is complete and whose sync fails: the commit is reported as
failed, and its record is in the log. -/

/-- Every part of a frame but the whole is taken for the end of the log. -/
theorem Intact.torn {s s' : LsmSystem} {v : Image} {D : OrdMap Bytes Bytes} (h : Intact s v D)
    (hclean : v.Clean) {r : WalRecord} (hfits : r.Fits) {k : ℕ}
    (hk : k < (Wal.frame r.serialize).length) (hbackend : s'.backend = s.backend)
    (htouches : s.os.Touches s.backend.container.file s'.os)
    (hcontents : s'.os.contents s.backend.container.file =
      s.os.contents s.backend.container.file ++ (Wal.frame r.serialize).take k) :
    ∃ v', Intact s' v' D := by
  have hparse : Wal.parseFrame (v.tail ++ (Wal.frame r.serialize).take k) = none := by
    rw [hclean, List.nil_append]
    refine Wal.parseFrame_of_isPrefix hfits (List.take_prefix ..) ?_
    rw [List.length_take]
    omega
  refine ⟨v.trailing _ hparse, ⟨?_, ?_⟩, ?_⟩
  · rw [hbackend, hcontents, h.disk.contents, Image.file_trailing]
  · rw [hbackend]
    exact h.disk.placed.touches htouches
  · rw [hbackend]
    refine ⟨Image.denotes_trailing.mpr h.memory.stored, h.memory.live, h.memory.active, fun himm ↦ ?_⟩
    obtain ⟨hseq, hslot, hholds, hrefs, hstart, hnext⟩ := h.memory.books himm
    exact ⟨hseq, hslot, hholds, hrefs, hstart, hnext⟩

/-- The answers by which an append fails once its frame is complete: its last call, the sync. -/
def SyncFails (os : Os) : Prop :=
  os.answer = .done ∧ os.pop.answer = .done ∧ os.pop.pop.answer ≠ .done

instance (os : Os) : Decidable (SyncFails os) := inferInstanceAs (Decidable (_ ∧ _ ∧ _))

/-- An append that fails before its frame is complete leaves the map; one that does not fit a frame
leaves everything. -/
theorem appendRecord_error {s s' : LsmSystem} {v : Image} {D : OrdMap Bytes Bytes} {p : Pending}
    {e : BknError} (h : Intact s v D) (hclean : v.Clean) (hsync : ¬SyncFails s.os)
    (herr : appendRecord p s = (.error e, s')) :
    (¬(⟨p.entries⟩ : WalRecord).Fits ∧ s' = s) ∨
      ((⟨p.entries⟩ : WalRecord).Fits ∧ ∃ v', Intact s' v' D) := by
  obtain ⟨hbackend, htouches⟩ := appendRecord_touches p s
  rw [herr] at hbackend htouches
  rw [appendRecord_apply] at herr
  have hpos : 0 < (Wal.frame (⟨p.entries⟩ : WalRecord).serialize).length :=
    List.length_pos_iff.mpr (Wal.frame_ne_nil _)
  rcases Wal.append_cases s.backend.container.file ⟨p.entries⟩ s.os with
    ⟨hfits, e', happend⟩ | ⟨hfits, happend, -⟩ | ⟨hfits, n, hn, happend, -⟩ |
    ⟨hfits, hseek, hwrite, happend⟩
  · rw [happend] at herr
    cases herr
    exact .inl ⟨hfits, rfl⟩
  · rw [happend] at herr
    cases herr
    refine .inr ⟨hfits, Intact.torn h hclean hfits hpos hbackend htouches ?_⟩
    rw [List.take_zero, List.append_nil]
    rfl
  · rw [happend] at herr
    cases herr
    exact .inr ⟨hfits, Intact.torn h hclean hfits hn hbackend htouches (Os.contents_setContents_self ..)⟩
  · -- the frame is complete, and then only the sync can have failed
    have hdone : s.os.pop.pop.answer = .done := by
      by_contra hne
      exact hsync ⟨hseek, hwrite, hne⟩
    have hok := @Os.sync_of_done BknError ioErr s.backend.container.file
      (s.os.pop.pop.setContents s.backend.container.file
        (s.os.contents s.backend.container.file ++ Wal.frame (⟨p.entries⟩ : WalRecord).serialize))
      hdone
    rw [happend, hok] at herr
    cases herr

/-! ## A failed flush -/

variable [BloomSizing]

/-- The header that a flush writes, when its table begins at this offset. -/
def flushHeader (b : LsmStorageBackend) (len : ℕ) (memtable : Memtable) (generation : ℕ) : Bytes :=
  encodeSlot (b.container.headerSeq + 1) (len + (flushTable b memtable).length)
    (flushManifest b len memtable generation).encode

/-- No part of what a flush writes to a file is mistaken for something else. Behind the log no part
of the table and the manifest reads as a frame. A header that is cut short, the calls before it
done, is no valid header, or an older one. -/
structure Unmistakable (b : LsmStorageBackend) (file : Bytes) (plan : List Answer)
    (memtable : Memtable) (generation : ℕ) : Prop where
  body : ∀ k ≤ (flushImage b file.length memtable generation).length,
    Wal.parseFrame (logTail file ++ (flushImage b file.length memtable generation).take k) = none
  header : (∀ a ∈ plan.take 7, a = Answer.done) → ∀ n ≤ headerSlotLen,
    mixed (slotBytes file (1 - b.container.headerSlot)) (flushHeader b file.length memtable generation)
        n = flushHeader b file.length memtable generation ∨
      Superseded b.container.headerSeq (1 - b.container.headerSlot)
        (mixed (slotBytes file (1 - b.container.headerSlot))
          (flushHeader b file.length memtable generation) n)

instance (b : LsmStorageBackend) (file : Bytes) (plan : List Answer) (memtable : Memtable)
    (generation : ℕ) : Decidable (Unmistakable b file plan memtable generation) :=
  decidable_of_iff (_ ∧ _) ⟨fun ⟨h, h'⟩ ↦ Unmistakable.mk h h', fun ⟨h, h'⟩ ↦ ⟨h, h'⟩⟩

omit [BloomSizing] in
theorem Flushing.intact_of_image {s s' : LsmSystem} {v v' : Image} {D : OrdMap Bytes Bytes}
    {memtable : Memtable} {generation : ℕ} (h : Flushing s v D memtable generation)
    (hbackend : s'.backend = s.backend)
    (htouches : s.os.Touches s.backend.container.file s'.os)
    (hcontents : s'.os.contents s.backend.container.file = v'.file) (hstored : v'.Denotes D) :
    Intact s' v' D := by
  have himm : s'.backend.state.immutableMemtables ≠ [] := by
    rw [hbackend, h.immutables]
    exact List.cons_ne_nil _ _
  refine ⟨⟨?_, ?_⟩, hstored, ?_, fun hnil ↦ absurd hnil himm, fun hnil ↦ absurd hnil himm⟩
  · rw [hbackend, hcontents]
  · rw [hbackend]
    exact h.disk.placed.touches htouches
  · rw [hbackend]
    exact h.live

omit [Lz4] [BloomSizing] in
theorem tornHeader_min (file : Bytes) {w : HeaderWrite} (hw : w.bytes.length = headerSlotLen) (n : ℕ) :
    tornHeader file w n = tornHeader file w (min n headerSlotLen) := by
  rw [tornHeader, tornHeader, List.take_eq_take_min, hw]

omit [BloomSizing] in
theorem Flushing.torn {s s' : LsmSystem} {v : Image} {D : OrdMap Bytes Bytes} {memtable : Memtable}
    {generation n offset : ℕ} {more : Bytes} {m : Manifest} (h : Flushing s v D memtable generation)
    (hready : HeaderReady (v.file ++ more) v.header.seq v.header.slot offset m
      (v.tables ++ [memtable]))
    (hbackend : s'.backend = s.backend) (htouches : s.os.Touches s.backend.container.file s'.os)
    (hcontents : s'.os.contents s.backend.container.file =
      tornHeader (v.file ++ more) (HeaderReady.write v.header.seq v.header.slot offset m) n)
    (hparse : Wal.parseFrame (v.tail ++ more) = none)
    (hmixed : mixed (slotBytes v.base (1 - v.header.slot))
          (HeaderReady.write v.header.seq v.header.slot offset m).bytes n =
        (HeaderReady.write v.header.seq v.header.slot offset m).bytes ∨
      Superseded v.header.seq (1 - v.header.slot) (mixed (slotBytes v.base (1 - v.header.slot))
        (HeaderReady.write v.header.seq v.header.slot offset m).bytes n)) :
    ∃ v', Intact s' v' D := by
  set w := HeaderReady.write v.header.seq v.header.slot offset m with hw
  have hslot : w.slot ≤ 1 := Nat.sub_le ..
  have hbytes : w.bytes.length = headerSlotLen := length_encodeSlot ..
  have hbase := v.bodyStart_le_base
  have hfile : v.file ++ more = v.base ++ (v.body ++ v.tail ++ more) := by
    rw [Image.file]
    simp only [List.append_assoc]
  rcases hmixed with hcomplete | hsuperseded
  · -- the header is complete: the file has the table
    have hcomplete' : mixed (slotBytes (v.file ++ more) (1 - v.header.slot)) w.bytes n = w.bytes := by
      have hsame : slotBytes (v.file ++ more) (1 - v.header.slot) =
          slotBytes v.base (1 - v.header.slot) := by
        rw [bodyStart] at hbase
        rw [hfile]
        refine Bytes.slice_append_left ?_ _
        rcases one_sub_slot v.slot_le with ⟨hs, hs'⟩ | ⟨hs, hs'⟩ <;> rw [hs'] <;> omega
      rw [hsame, hcomplete]
    refine ⟨hready.image n hcomplete', h.intact_of_image hbackend htouches ?_ h.denotes⟩
    change _ = tornHeader (v.file ++ more) w n ++ ([] ++ [])
    rw [hcontents, List.append_nil, List.append_nil]
  · -- the header that was current still is
    have hback : 1 - w.slot = v.header.slot := by
      have hle := v.slot_le
      change 1 - (1 - v.header.slot) = v.header.slot
      omega
    have hother := @slotBytes_tornHeader_other v.base w n hbase hslot hbytes
    rw [hback] at hother
    have hself : slotBytes (tornHeader v.base w n) (1 - v.header.slot) =
        mixed (slotBytes v.base (1 - v.header.slot)) w.bytes n :=
      slotBytes_tornHeader_self hbase hslot hbytes
    rw [← hself] at hsuperseded
    let v₁ := v.reslot (tornHeader v.base w n) (length_tornHeader hbase hslot hbytes) hother
      hsuperseded fun off len hoff ↦ slice_tornHeader hbase hslot hbytes hoff
    have hfile₁ : v₁.file = tornHeader v.base w n ++ (v.body ++ v.tail) := rfl
    have htrailing : (v₁.trailing more hparse).file = v₁.file ++ more := Image.file_trailing ..
    refine ⟨v₁.trailing more hparse, h.intact_of_image hbackend htouches ?_
      (Image.denotes_trailing.mpr h.stored)⟩
    rw [hcontents, htrailing, hfile₁, hfile, tornHeader_append hbase hslot hbytes]
    simp only [List.append_assoc]

/-- **A flush that fails leaves the map**, if nothing it has written is mistaken for something else. -/
theorem Flushing.leftover {s s' : LsmSystem} {v : Image} {D : OrdMap Bytes Bytes}
    {memtable : Memtable} {generation : ℕ} {e : BknError} (h : Flushing s v D memtable generation)
    (hun : Unmistakable s.backend (s.os.contents s.backend.container.file) s.os.plan memtable
      generation)
    (hrun : writeFlush memtable generation s = (.error e, s')) : ∃ v', Intact s' v' D := by
  obtain ⟨hbody, hheader⟩ := hun
  rw [h.disk.contents, v.logTail_file] at hbody
  rw [h.disk.contents, h.books.slot, h.books.seq, v.slotBytes_file (Nat.sub_le ..)] at hheader
  set more := flushImage s.backend v.file.length memtable generation with hmore
  have hpart : ∀ k, Wal.parseFrame (v.tail ++ more.take k) = none := fun k ↦ by
    rw [List.take_eq_take_min]
    exact hbody _ (Nat.min_le_right ..)
  obtain ⟨htouches, ⟨_, _, _, ⟨⟩, -⟩ | ⟨_, k, -, hbackend, hcontents, -⟩ |
    ⟨_, n, -, hbackend, hcontents, hready, -, hdone⟩⟩ := writeFlush_cases h hrun
  · exact ⟨v.trailing _ (hpart k), h.intact_of_image hbackend htouches
      (hcontents.trans (Image.file_trailing ..).symm) (Image.denotes_trailing.mpr h.stored)⟩
  · have hhdr : flushHeader s.backend v.file.length memtable generation =
        (HeaderReady.write v.header.seq v.header.slot
          (v.file.length + (flushTable s.backend memtable).length)
          (flushManifest s.backend v.file.length memtable generation)).bytes := by
      rw [flushHeader, h.books.seq]
      rfl
    replace hheader := hheader hdone
    rw [hhdr] at hheader
    have hwhole := hpart more.length
    rw [List.take_length] at hwhole
    refine h.torn hready hbackend htouches ?_ hwhole (hheader _ (Nat.min_le_right n _))
    rw [hcontents, ← tornHeader_min _ (length_encodeSlot ..)]
    rfl

end Lsm
