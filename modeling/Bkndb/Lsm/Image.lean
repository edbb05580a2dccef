import Bkndb.Lsm.Engine
import Bkndb.Lsm.SstOpen
import Bkndb.Lsm.TornHeader

/-!
# What a container file says

A well-formed container file falls into three parts: the header area with the SSTables and the
manifests up to where the log begins, the frames of the log, and whatever stands behind them that is
not a frame. `Image` takes such a file apart and names what its parts mean: the current header, the
manifest, the tables and the records. A write to the file makes another image of it, and opening the
file finds what the image says.

## Why an image

Bytes behind the log and in the slot that is not current may be anything, so that the same database
is stored in many different files. An image fixes the parts that are read and leaves the rest free.
A program that writes to the file leads to another image (`logged`, `trailing`, `reslot`,
`HeaderReady.image`), and most proofs are about these four changes and not about bytes.

## What an image stands for

The tables of the manifest are layers, and the records of the log, replayed into a memtable, are
the layer on top. `Denotes` says that these layers make up a map; it is the abstraction function of
the storage, as a relation.
-/

open Container Layers

/-! ## Tables in a file -/

section

variable [Lz4]

/-- A table lies in the file: wherever the same bytes lie, they open as a handle that holds it. -/
structure TableAt (base : Bytes) (r : SstableRef) (t : Memtable) : Prop where
  body_le : bodyStart ≤ r.offset
  inside : r.offset + r.length ≤ base.length
  opens : ∀ file : Bytes, file.length < 2 ^ 64 → r.offset + r.length ≤ file.length →
    file.slice r.offset r.length = base.slice r.offset r.length →
    ∃ h, Sst.openHandle file r.generation r.offset r.length = .ok h ∧ h.Holds t.entries ∧
      Lsm.sstableRef h = r

theorem TableAt.congr {base base' : Bytes} {r : SstableRef} {t : Memtable} (h : TableAt base r t)
    (hlen : base.length ≤ base'.length)
    (hslice : base'.slice r.offset r.length = base.slice r.offset r.length) : TableAt base' r t where
  body_le := h.body_le
  inside := h.inside.trans hlen
  opens file hfile hinside heq := h.opens file hfile hinside (heq.trans hslice)

end

/-- A slot that the current header outranks. -/
def Superseded (seq slot : ℕ) (buf : Bytes) : Prop :=
  decodeSlot slot buf = .ok none ∨ ∃ b, decodeSlot slot buf = .ok (some b) ∧ b.seq < seq

/-! ## Images

The parts have to fit together: the header names the manifest, the manifest names tables that are
in the file, and the log begins where the manifest says. -/

variable [Lz4]

/-- A container file, taken apart. -/
structure Image where
  /-- Everything before the log. -/
  base : Bytes
  /-- The frames of the log. -/
  body : Bytes
  /-- What is behind them. -/
  tail : Bytes
  header : HeaderSlot
  manifest : Manifest
  tables : List Memtable
  records : List WalRecord
  slot_le : header.slot ≤ 1
  current : decodeSlot header.slot (slotBytes base header.slot) = .ok (some header)
  other : Superseded header.seq (1 - header.slot) (slotBytes base (1 - header.slot))
  body_le : bodyStart ≤ header.manifestOffset
  inside : header.manifestOffset + header.manifestLen ≤ base.length
  bytes : base.slice header.manifestOffset header.manifestLen = manifest.encode
  crc : ∀ c, header.manifestCrc = some c → c = crc32 manifest.encode
  valid : Manifest.codec.Valid manifest
  start : manifest.walRegionStart = base.length
  refs : List.Forall₂ (TableAt base) manifest.sstables tables
  ascending : manifest.sstables.Pairwise fun r r' ↦ r.generation < r'.generation
  ids : ∀ r ∈ manifest.sstables, r.generation < manifest.nextSstableId
  log : Wal.replay body = (records, body.length)
  behind : Wal.parseFrame tail = none
  length_le : (base ++ body).length ≤ Os.maxLen

namespace Image

/-- The file. -/
def file (v : Image) : Bytes := v.base ++ (v.body ++ v.tail)

/-- The layers that an open finds, newest first. -/
def layers (v : Image) : List (List SstEntry) :=
  (Lsm.replayed v.records).entries :: v.tables.reverse.map OrdMap.entries

/-- **The map that the file stands for.** -/
def Denotes (v : Image) (D : OrdMap Bytes Bytes) : Prop := Layers.Denotes LsmValue.live v.layers D

/-- The frames reach to the end of the file. -/
def Clean (v : Image) : Prop := v.tail = []

theorem bodyStart_le_base (v : Image) : bodyStart ≤ v.base.length :=
  v.body_le.trans ((Nat.le_add_right ..).trans v.inside)

theorem slotBytes_file (v : Image) {i : ℕ} (hi : i ≤ 1) :
    slotBytes v.file i = slotBytes v.base i := by
  have hle := v.bodyStart_le_base
  rw [bodyStart] at hle
  refine Bytes.slice_append_left ?_ _
  rcases one_sub_slot hi with ⟨rfl, -⟩ | ⟨rfl, -⟩ <;> omega

/-! ## Opening

An open reads the parts one after the other, and finds the ones that the image was taken apart
into. -/

theorem readHeader_file (v : Image) : readHeader v.file = .ok (some v.header) := by
  have hlen : bodyStart ≤ v.file.length := by
    rw [file, List.length_append]
    exact v.bodyStart_le_base.trans (Nat.le_add_right ..)
  have hcurrent := v.current
  rw [← v.slotBytes_file v.slot_le] at hcurrent
  have hother := v.other
  rw [← v.slotBytes_file (Nat.sub_le ..)] at hother
  rcases hother with hnone | ⟨b, hb, hlt⟩
  · exact readHeader_of_none hlen v.slot_le hcurrent hnone
  · exact readHeader_of_lt hlen v.slot_le hcurrent hb hlt

theorem readManifest_file (v : Image) : readManifest v.file v.header = .ok v.manifest.encode := by
  have hinside := v.inside
  have hlen := v.length_le
  rw [List.length_append] at hlen
  have hmax : Os.maxLen < 2 ^ 64 := by decide
  have hblob : readBlob v.file v.header.manifestOffset v.header.manifestLen =
      .ok v.manifest.encode := by
    rw [readBlob, if_neg (by omega), if_neg ?_, file, Bytes.slice_append_left v.inside, v.bytes]
    rw [file, List.length_append]
    omega
  have hcrc : v.header.manifestCrc.any (· ≠ crc32 v.manifest.encode) = false := by
    cases hc : v.header.manifestCrc with
    | none => rfl
    | some c => simp [v.crc c hc]
  rw [readManifest, hblob]
  dsimp only
  rw [hcrc, if_neg Bool.false_ne_true]

theorem replayFrom_file (v : Image) :
    Wal.replayFrom v.file v.manifest.walRegionStart =
      (v.records, v.manifest.walRegionStart + v.body.length) := by
  rw [v.start, Wal.replayFrom, file, List.drop_left, Wal.replay_append (by rw [v.log]),
    Wal.replay_eq_of_none v.behind, v.log]
  simp

/-! ## Appending -/

/-- More bytes behind the log, as long as no frame begins there. -/
def trailing (v : Image) (x : Bytes) (hx : Wal.parseFrame (v.tail ++ x) = none) : Image :=
  { v with tail := v.tail ++ x, behind := hx }

@[simp] theorem file_trailing (v : Image) (x : Bytes) (hx : Wal.parseFrame (v.tail ++ x) = none) :
    (v.trailing x hx).file = v.file ++ x := by
  simp only [trailing, file, List.append_assoc]

theorem denotes_trailing {v : Image} {x : Bytes} {hx : Wal.parseFrame (v.tail ++ x) = none}
    {D : OrdMap Bytes Bytes} : (v.trailing x hx).Denotes D ↔ v.Denotes D := Iff.rfl

/-- The file cut where the frames end. -/
def cut (v : Image) : Image := { v with tail := [], behind := rfl }

theorem file_cut (v : Image) : v.cut.file = v.base ++ v.body := by
  simp only [cut, file, List.append_nil]

theorem file_of_clean {v : Image} (h : v.Clean) : v.file = v.base ++ v.body := by
  rw [file, h, List.append_nil]

omit [Lz4] in
theorem replayed_concat (rs : List WalRecord) (r : WalRecord) :
    Lsm.replayed (rs ++ [r]) =
      r.entries.foldl (fun m e ↦ m.insert e.1 (.ofOption e.2)) (Lsm.replayed rs) := by
  rw [Lsm.replayed, List.foldl_append]
  rfl

omit [Lz4] in
/-- The record of a batch, replayed, writes the batch. -/
theorem replayed_record (rs : List WalRecord) (p : Pending) :
    Lsm.replayed (rs ++ [⟨p.entries⟩]) =
      Layers.writeBatch LsmValue.ofOption (Lsm.replayed rs) p := replayed_concat rs _

/-- A frame more at the end of a log that reaches to the end of the file. -/
def logged (v : Image) (r : WalRecord) (hfits : r.Fits)
    (hlen : v.file.length + (Wal.frame r.serialize).length ≤ Os.maxLen) : Image :=
  { v with
    body := v.body ++ Wal.frame r.serialize
    tail := []
    records := v.records ++ [r]
    log := by
      have hframe : Wal.replay (Wal.frame r.serialize) = ([r], (Wal.frame r.serialize).length) := by
        have hone := Wal.parseFrame_frame hfits []
        rw [List.append_nil] at hone
        rw [Wal.replay_eq_of_some hone, List.drop_length]
        rfl
      rw [Wal.replay_append (by rw [v.log]), v.log, hframe, List.length_append]
    behind := rfl
    length_le := by
      rw [file] at hlen
      simp only [List.length_append] at hlen ⊢
      omega }

theorem file_logged {v : Image} {r : WalRecord} {hfits : r.Fits}
    {hlen : v.file.length + (Wal.frame r.serialize).length ≤ Os.maxLen} (hclean : v.Clean) :
    (v.logged r hfits hlen).file = v.file ++ Wal.frame r.serialize := by
  rw [file_of_clean hclean, logged, file]
  simp only [List.append_nil, List.append_assoc]

/-- The batch whose frame was appended is part of what the file stands for. -/
theorem Denotes.logged {v : Image} {D : OrdMap Bytes Bytes} (h : v.Denotes D) {p : Pending}
    (hfits : (⟨p.entries⟩ : WalRecord).Fits)
    (hlen : v.file.length + (Wal.frame (⟨p.entries⟩ : WalRecord).serialize).length ≤ Os.maxLen) :
    (v.logged ⟨p.entries⟩ hfits hlen).Denotes (Layers.applyBatch D p) := by
  have hreplayed := replayed_record v.records p
  change Layers.Denotes LsmValue.live ((Lsm.replayed (v.records ++ [⟨p.entries⟩])).entries :: _) _
  rw [hreplayed]
  exact Layers.Denotes.writeBatch h LsmValue.live_ofOption p

/-! ## A write to the other header slot -/

/-- The same file with other bytes in the slot that is not current. -/
def reslot (v : Image) (base' : Bytes) (hlen : base'.length = v.base.length)
    (hcurrent : slotBytes base' v.header.slot = slotBytes v.base v.header.slot)
    (hother : Superseded v.header.seq (1 - v.header.slot) (slotBytes base' (1 - v.header.slot)))
    (hbody : ∀ off len, bodyStart ≤ off → base'.slice off len = v.base.slice off len) : Image :=
  { v with
    base := base'
    current := by rw [hcurrent]; exact v.current
    other := hother
    inside := by rw [hlen]; exact v.inside
    bytes := by rw [hbody _ _ v.body_le]; exact v.bytes
    start := by rw [hlen]; exact v.start
    refs := v.refs.imp fun _ _ h ↦ h.congr hlen.ge (hbody _ _ h.body_le)
    length_le := by
      have hle := v.length_le
      rw [List.length_append] at hle ⊢
      rwa [hlen] }

end Image
/-! ## A new header -/

/-- A file that lacks nothing but the header: the manifest is its last part and names tables of the
file. -/
structure HeaderReady (f : Bytes) (prevSeq prevSlot offset : ℕ) (m : Manifest)
    (tables : List Memtable) : Prop where
  slot_le : prevSlot ≤ 1
  seq_lt : prevSeq + 1 < 2 ^ 64
  superseded : Superseded (prevSeq + 1) prevSlot (slotBytes f prevSlot)
  body_le : bodyStart ≤ offset
  manifest : ∃ before, f = before ++ m.encode ∧ before.length = offset
  start : m.walRegionStart = f.length
  length_le : f.length ≤ Os.maxLen
  next_lt : m.nextSstableId < 2 ^ 64
  refs : List.Forall₂ (TableAt f) m.sstables tables
  ascending : m.sstables.Pairwise fun r r' ↦ r.generation < r'.generation
  ids : ∀ r ∈ m.sstables, r.generation < m.nextSstableId

namespace HeaderReady

variable {f : Bytes} {prevSeq prevSlot offset : ℕ} {m : Manifest} {tables : List Memtable}

/-- The header that is still to be written. -/
def write (prevSeq prevSlot offset : ℕ) (m : Manifest) : HeaderWrite :=
  ⟨prevSeq + 1, 1 - prevSlot, encodeSlot (prevSeq + 1) offset m.encode⟩

theorem length_eq (h : HeaderReady f prevSeq prevSlot offset m tables) :
    f.length = offset + m.encode.length := by
  obtain ⟨before, rfl, rfl⟩ := h.manifest
  exact List.length_append

theorem bodyStart_le (h : HeaderReady f prevSeq prevSlot offset m tables) : bodyStart ≤ f.length := by
  have hbody := h.body_le
  have hlen := h.length_eq
  omega

theorem mixed_eq (h : HeaderReady f prevSeq prevSlot offset m tables) :
    mixed (slotBytes f (1 - prevSlot)) (write prevSeq prevSlot offset m).bytes headerSlotLen =
      (write prevSeq prevSlot offset m).bytes :=
  mixed_headerSlotLen (length_slotBytes h.bodyStart_le (Nat.sub_le ..)) _ _ _

theorem valid (h : HeaderReady f prevSeq prevSlot offset m tables) : Manifest.codec.Valid m := by
  have hlen := h.length_eq
  have hle := h.length_le
  have hmax : Os.maxLen < 2 ^ 64 := by decide
  have hnext := h.next_lt
  rw [Manifest.length_encode] at hlen
  refine ⟨?_, ⟨?_, fun r hr ↦ ?_⟩, ?_⟩
  · change m.nextSstableId < 256 ^ 8
    omega
  · change m.sstables.length < 256 ^ 8
    omega
  · obtain ⟨t, -, ht⟩ := h.refs.exists_right hr
    have hgeneration := (h.ids r hr).trans h.next_lt
    have hinside := ht.inside
    refine ⟨?_, ?_, ?_⟩
    · change r.generation < 256 ^ 8
      omega
    · change r.offset < 256 ^ 8
      omega
    · change r.length < 256 ^ 8
      omega
  · change m.walRegionStart < 256 ^ 8
    have hstart := h.start
    omega

/-- **The image of the file once the header is complete.** -/
def image (h : HeaderReady f prevSeq prevSlot offset m tables) (n : ℕ)
    (hcomplete : mixed (slotBytes f (1 - prevSlot)) (write prevSeq prevSlot offset m).bytes n =
      (write prevSeq prevSlot offset m).bytes) : Image :=
  have hslot : (write prevSeq prevSlot offset m).slot ≤ 1 := Nat.sub_le ..
  have hbytes : (write prevSeq prevSlot offset m).bytes.length = headerSlotLen :=
    length_encodeSlot ..
  have hlen := length_tornHeader (n := n) h.bodyStart_le hslot hbytes
  have hback : 1 - (write prevSeq prevSlot offset m).slot = prevSlot := by
    have := h.slot_le
    change 1 - (1 - prevSlot) = prevSlot
    omega
  have hoffset : offset < 2 ^ 64 := by
    have hlen := h.length_eq
    have hle := h.length_le
    have hmax : Os.maxLen < 2 ^ 64 := by decide
    omega
  have hmanifest : m.encode.length < 2 ^ 64 := by
    have hlen := h.length_eq
    have hle := h.length_le
    have hmax : Os.maxLen < 2 ^ 64 := by decide
    omega
  { base := tornHeader f (write prevSeq prevSlot offset m) n
    body := []
    tail := []
    header := ⟨1 - prevSlot, prevSeq + 1, offset, m.encode.length, some (crc32 m.encode)⟩
    manifest := m
    tables := tables
    records := []
    slot_le := hslot
    current := by
      have hself := @slotBytes_tornHeader_self _ _ n h.bodyStart_le hslot hbytes
      change slotBytes (tornHeader f (write prevSeq prevSlot offset m) n) (1 - prevSlot) = _ at hself
      rw [hself]
      change decodeSlot (1 - prevSlot) (mixed (slotBytes f (1 - prevSlot)) _ n) = _
      rw [hcomplete]
      exact decodeSlot_encodeSlot_of_lt _ h.seq_lt hoffset hmanifest
    other := by
      have hother := @slotBytes_tornHeader_other _ _ n h.bodyStart_le hslot hbytes
      rw [hback] at hother
      change Superseded (prevSeq + 1) (1 - (1 - prevSlot)) (slotBytes _ (1 - (1 - prevSlot)))
      change 1 - (1 - prevSlot) = prevSlot at hback
      rw [hback, hother]
      exact h.superseded
    body_le := h.body_le
    inside := by
      rw [hlen]
      exact h.length_eq.ge
    bytes := by
      obtain ⟨before, hf, hbefore⟩ := h.manifest
      change Bytes.slice _ offset m.encode.length = _
      rw [slice_tornHeader h.bodyStart_le hslot hbytes h.body_le]
      exact Bytes.slice_of_eq before _ [] (by rw [List.append_nil, hf]) hbefore rfl
    crc := fun c hc ↦ (Option.some.inj hc).symm
    valid := h.valid
    start := by rw [hlen, h.start]
    refs := h.refs.imp fun r t ht ↦ ht.congr hlen.ge
      (slice_tornHeader h.bodyStart_le hslot hbytes ht.body_le)
    ascending := h.ascending
    ids := h.ids
    log := rfl
    behind := rfl
    length_le := by
      rw [List.append_nil, hlen]
      exact h.length_le }

end HeaderReady
