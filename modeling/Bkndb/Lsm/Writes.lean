import Bkndb.Lsm.Image

/-!
# What the writes do to the file

Writing a table, a manifest and a header, step by step, when any call may fail: what has been put
down by then. Until the header is written everything goes behind the log.

## In two directions

For each write there is one lemma for success and one for failure: on success the bytes are at the
end of the file and everything else is as before; on failure a part of them is. Nothing is said
about durability except after a sync, and a header is complete or torn, never absent when its write
has begun.
-/

open Container

namespace Sst

variable [Lz4] [BloomSizing]

/-! ## Tables -/

/-- What a write puts down if no call fails: a table, or the blocks up to the one that is refused. -/
def image (opts : WriteOptions) (entries : List (Except BknError SstEntry)) (n : ℕ) : Bytes :=
  match writeEntries opts entries { bloom := BloomFilter.new (max n 1) } with
  | (.ok (), w) => w.block.out ++ w.trailer
  | (.error _, w) => w.block.out

/-- The format takes the entries. -/
def Accepts (opts : WriteOptions) (entries : List (Except BknError SstEntry)) (n : ℕ) : Prop :=
  opts.blockSize + 64 < 2 ^ 63 ∧
    (writeEntries opts entries { bloom := BloomFilter.new (max n 1) }).1 = .ok ()

instance (opts : WriteOptions) (entries : List (Except BknError SstEntry)) (n : ℕ) :
    Decidable (Accepts opts entries n) :=
  have (x : Except BknError Unit) : Decidable (x = .ok ()) :=
    match x with
    | .ok () => .isTrue rfl
    | .error _ => .isFalse (by simp)
  @instDecidableAnd _ _ (Nat.decLt _ _) (this _)

theorem steps_write (i generation : ℕ) (entries : List (Except BknError SstEntry)) (n : ℕ)
    (opts : WriteOptions) : Effect.Steps (Os.Touches i) (write i generation entries n opts) := by
  refine Os.steps_bind (Os.steps_fileLen _ i i) fun base ↦ Os.steps_bind (Os.steps_call _ i) fun _ ↦ ?_
  rcases writeEntries opts entries { bloom := BloomFilter.new (max n 1) } with ⟨res, w⟩
  refine Os.steps_unless fun _ ↦ ?_
  cases res with
  | error e =>
    exact Os.steps_bind (Os.steps_writeWith true _ i base _).ignore fun _ ↦ Os.steps_throw i e
  | ok u =>
    exact Os.steps_bind (Os.steps_writeWith true _ i base _) fun _ ↦
      Os.steps_bind (Os.steps_call _ i) fun _ ↦
        Os.steps_bind (Os.steps_get i) fun _ ↦ Os.steps_pure i _

theorem uses_write (i generation : ℕ) (entries : List (Except BknError SstEntry)) (n : ℕ)
    (opts : WriteOptions) : Os.Uses 4 (write i generation entries n opts) := by
  refine (Os.uses_fileLen _ i).bind fun base ↦ (Os.uses_call _).bind (m := 2) fun _ ↦ ?_
  rcases writeEntries opts entries { bloom := BloomFilter.new (max n 1) } with ⟨res, w⟩
  refine Os.uses_unless fun _ ↦ ?_
  cases res with
  | error e =>
    intro os a os' h
    obtain ⟨_, os₁, -, h⟩ := Effect.bind_eq_ok.mp h
    cases h
  | ok u =>
    exact (Os.uses_writeWith true _ i base _).bind (m := 1) fun _ ↦
      (Os.uses_call _).bind fun _ ↦ Os.uses_get.bind fun _ ↦ Os.uses_pure _

/-- A write that fails has put down a part of the table. -/
theorem write_eq_error {i generation : ℕ} {entries : List (Except BknError SstEntry)} {n : ℕ}
    {opts : WriteOptions} {os os' : Os} {e : BknError}
    (h : write i generation entries n opts os = (.error e, os')) :
    (∃ k, os'.contents i = os.contents i ++ (image opts entries n).take k) ∧
      (os'.failed = true ∨ ¬Accepts opts entries n) := by
  have hnone : ∀ os'' : Os, os''.contents i = os.contents i →
      ∃ k, os''.contents i = os.contents i ++ (image opts entries n).take k := fun _ heq ↦
    ⟨0, by rw [heq, List.take_zero, List.append_nil]⟩
  rw [write, Effect.bind_eq_error] at h
  rcases h with h | ⟨base, os₁, hlen, h⟩
  · rw [Os.fileLen_eq_error h]
    exact ⟨hnone _ rfl, .inl rfl⟩
  obtain ⟨-, rfl, rfl⟩ := Os.fileLen_eq_ok.mp hlen
  rw [Effect.bind_eq_error] at h
  rcases h with h | ⟨_, os₂, hseek, h⟩
  · rw [Os.call_eq_error h]
    exact ⟨hnone _ rfl, .inl rfl⟩
  obtain ⟨-, rfl⟩ := Os.call_eq_ok.mp hseek
  split at h
  next hsize =>
    cases h
    exact ⟨hnone _ rfl, .inr fun haccepts ↦ absurd hsize (not_le.mpr haccepts.1)⟩
  next hsize =>
    rcases hrun : writeEntries opts entries { bloom := BloomFilter.new (max n 1) } with ⟨res, w⟩
    rw [hrun] at h
    dsimp only at h
    cases res with
    | error e' =>
      have himage : image opts entries n = w.block.out := by rw [image, hrun]
      rw [Effect.bind_eq_error] at h
      rcases h with h | ⟨_, os₃, hwrite, h⟩
      · cases h
      · cases h
        have hrejected : ¬Accepts opts entries n := by
          rintro ⟨-, hok⟩
          rw [hrun] at hok
          cases hok
        refine ⟨?_, .inr hrejected⟩
        cases hwrite
        rw [himage]
        rcases Os.writeWith_cases true ioErr i (os.contents i).length w.block.out os.pop.pop with
          ⟨hw, -⟩ | ⟨k, hw, -⟩
        · refine ⟨w.block.out.length, ?_⟩
          rw [Os.writeBuffered, hw, List.take_length, Os.contents_setContents_self]
          exact Bytes.writeAt_length ..
        · refine ⟨k, ?_⟩
          rw [Os.writeBuffered, hw, Os.contents_fail, Os.contents_setContents_self]
          exact Bytes.writeAt_length ..
    | ok u =>
      have himage : image opts entries n = w.block.out ++ w.trailer := by rw [image, hrun]
      rw [himage]
      rw [Effect.bind_eq_error] at h
      rcases h with h | ⟨_, os₃, hwrite, h⟩
      · obtain ⟨k, rfl⟩ := Os.writeWith_eq_error h
        refine ⟨⟨k, ?_⟩, .inl rfl⟩
        rw [Os.contents_fail, Os.contents_setContents_self]
        exact Bytes.writeAt_length ..
      · obtain ⟨-, -, rfl⟩ := Os.writeWith_eq_ok.mp hwrite
        rw [Effect.bind_eq_error] at h
        rcases h with h | ⟨_, os₄, -, h⟩
        · rw [Os.call_eq_error h]
          refine ⟨⟨(w.block.out ++ w.trailer).length, ?_⟩, .inl rfl⟩
          rw [List.take_length, Os.contents_fail, Os.contents_pop, Os.contents_setContents_self]
          exact Bytes.writeAt_length ..
        · cases h

theorem SstWriter.Gathered.length_blob {n : ℕ} {w : SstWriter} {es : List SstEntry}
    (hw : w.Gathered n es) (mmap : Bytes) (base generation : ℕ) :
    (w.block.out ++ w.trailer).length = (w.handle mmap base generation).blobLen := by
  have hoffset := hw.block.offset
  rw [SstWriter.handle, SstWriter.trailer, hoffset]
  simp only [List.length_append, Bytes.length_be, length_magicV2]
  rw [footerV2Len]
  omega

/-- **A write that succeeds has put a table at the end of the file.** -/
theorem write_table {i generation n : ℕ} {t : Memtable} {opts : WriteOptions} {os os' : Os}
    {h : SstableHandle} (hok : write i generation (t.entries.map .ok) n opts os = (.ok h, os'))
    (hbody : bodyStart ≤ (os.contents i).length) :
    os'.contents i = os.contents i ++ image opts (t.entries.map .ok) n ∧
      (os'.contents i).length ≤ Os.maxLen ∧ h.baseOffset = (os.contents i).length ∧
      h.baseOffset + h.blobLen = (os'.contents i).length ∧ h.generation = generation ∧
      h.Holds t.entries ∧ TableAt (os'.contents i) (Lsm.sstableRef h) t := by
  obtain ⟨es, w, hes, hrun, hw, hraw, hcontents, hle, rfl⟩ := write_eq_ok hok
  obtain rfl : t.entries = es := List.map_injective_iff.mpr (fun _ _ h ↦ Except.ok.inj h) hes
  have himage : image opts (t.entries.map .ok) n = w.block.out ++ w.trailer := by rw [image, hrun]
  have hblob := hw.length_blob (os'.contents i) (os.contents i).length generation
  have hlen : (os'.contents i).length = (os.contents i).length +
      (w.block.out ++ w.trailer).length := by rw [hcontents, List.length_append]
  have hholds : ∀ (file before after : Bytes), file = before ++ ((w.block.out ++ w.trailer) ++ after) →
      file.length < 2 ^ 64 → (w.handle file before.length generation).Holds t.entries := by
    intro file before after hfile hlt
    have hmap : file = before ++ (w.block.out ++ (w.trailer ++ after)) := by
      rw [hfile]
      simp only [List.append_assoc]
    exact hw.holds hraw t.sorted hmap rfl hlt rfl rfl rfl rfl rfl
  have hfile : os'.contents i = os.contents i ++ ((w.block.out ++ w.trailer) ++ []) := by
    rw [List.append_nil, hcontents]
  have hinside : (os.contents i).length +
      (w.handle (os'.contents i) (os.contents i).length generation).blobLen =
        (os'.contents i).length := by rw [← hblob, hlen]
  refine ⟨himage ▸ hcontents, hle, rfl, hinside, rfl, hholds _ _ _ hfile
    (lt_of_le_of_lt hle (by decide)), hbody, hinside.le, fun file hlt hfit hslice ↦ ?_⟩
  -- another file with the same bytes there
  change (os.contents i).length +
    (w.handle (os'.contents i) (os.contents i).length generation).blobLen ≤ _ at hfit
  change Bytes.slice _ (os.contents i).length
    (w.handle (os'.contents i) (os.contents i).length generation).blobLen = _ at hslice
  have hblobSlice : file.slice (os.contents i).length (w.block.out ++ w.trailer).length =
      w.block.out ++ w.trailer := by
    rw [hblob, hslice]
    exact Bytes.slice_of_eq _ _ [] hfile rfl hblob
  have hsplit := Bytes.take_slice_drop file (os.contents i).length (w.block.out ++ w.trailer).length
  rw [hblobSlice] at hsplit
  have htake : (file.take (os.contents i).length).length = (os.contents i).length :=
    List.length_take_of_le (by omega)
  refine ⟨w.handle file (os.contents i).length generation, ?_, ?_, ?_⟩
  · have hopen := openHandle_write hw hraw hsplit hlt generation
    rw [htake] at hopen
    exact hopen
  · have hh := hholds file _ _ hsplit hlt
    rwa [htake] at hh
  · rfl

end Sst

namespace Container

/-! ## Manifests and headers -/

theorem steps_writeBlobAt (i offset : ℕ) (b : Bytes) :
    Effect.Steps (Os.Touches i) (writeBlobAt i offset b) :=
  Os.steps_bind (Os.steps_call _ i) fun _ ↦ Os.steps_writeWith false _ i offset b

theorem uses_writeBlobAt (i offset : ℕ) (b : Bytes) : Os.Uses 2 (writeBlobAt i offset b) :=
  (Os.uses_call _).bind fun _ ↦ Os.uses_writeWith false _ i offset b

/-- Bytes written at the end of the file: all of them, or some. -/
theorem writeBlobAt_cases {i : ℕ} {b : Bytes} {os os' : Os} {r : Except BknError Unit} {offset : ℕ}
    (h : writeBlobAt i offset b os = (r, os')) (hoffset : offset = (os.contents i).length) :
    (r = .ok () ∧ os'.contents i = os.contents i ++ b ∧ (os'.contents i).length ≤ Os.maxLen) ∨
      ∃ e k, r = .error e ∧ os'.contents i = os.contents i ++ b.take k ∧ os'.failed = true := by
  subst hoffset
  cases r with
  | ok u =>
    left
    obtain ⟨_, os₁, hseek, hwrite⟩ := Effect.bind_eq_ok.mp h
    obtain ⟨-, rfl⟩ := Os.call_eq_ok.mp hseek
    obtain ⟨-, hle, rfl⟩ := Os.writeWith_eq_ok.mp hwrite
    have hcontents : (os.contents i).writeAt (os.contents i).length b = os.contents i ++ b :=
      Bytes.writeAt_length ..
    rw [Os.contents_setContents_self]
    refine ⟨rfl, hcontents, ?_⟩
    rw [Os.contents_pop, hcontents, List.length_append]
    exact hle
  | error e =>
    right
    rcases Effect.bind_eq_error.mp h with hseek | ⟨_, os₁, hseek, hwrite⟩
    · refine ⟨e, 0, rfl, ?_, ?_⟩
      · rw [Os.call_eq_error hseek, List.take_zero, List.append_nil]
        rfl
      · rw [Os.call_eq_error hseek]
        rfl
    · obtain ⟨-, rfl⟩ := Os.call_eq_ok.mp hseek
      obtain ⟨k, rfl⟩ := Os.writeWith_eq_error hwrite
      refine ⟨e, k, rfl, ?_, rfl⟩
      rw [Os.contents_fail, Os.contents_setContents_self]
      exact Bytes.writeAt_length ..

theorem steps_writeHeader (i prevSeq prevSlot offset : ℕ) (manifest : Bytes) :
    Effect.Steps (Os.Touches i) (writeHeader i prevSeq prevSlot offset manifest) :=
  Os.steps_bind (Os.steps_ofExcept i _) fun _ ↦ Os.steps_bind (Os.steps_call _ i) fun _ ↦
    Os.steps_bind (Os.steps_writeWith false _ i _ _) fun _ ↦
      Os.steps_bind (Os.steps_sync _ i) fun _ ↦ Os.steps_pure i _

theorem nextHeader_cases (prevSeq prevSlot offset : ℕ) (m : Manifest) :
    (prevSeq + 1 < 2 ^ 64 ∧ nextHeader prevSeq prevSlot offset m.encode =
      .ok (HeaderReady.write prevSeq prevSlot offset m)) ∨
    (2 ^ 64 ≤ prevSeq + 1 ∧ ∃ e, nextHeader prevSeq prevSlot offset m.encode = .error e) := by
  rw [nextHeader, checkedAdd]
  by_cases hlt : prevSeq + 1 < 2 ^ 64
  · rw [if_pos hlt]
    exact .inl ⟨hlt, rfl⟩
  · rw [if_neg hlt]
    exact .inr ⟨not_lt.mp hlt, _, rfl⟩

/-- A header written: complete and durable, or torn somewhere. -/
theorem writeHeader_cases {i prevSeq prevSlot offset : ℕ} {m : Manifest} {os os' : Os}
    {r : Except BknError (ℕ × ℕ)}
    (h : writeHeader i prevSeq prevSlot offset m.encode os = (r, os')) :
    (r = .ok (prevSeq + 1, 1 - prevSlot) ∧ prevSeq + 1 < 2 ^ 64 ∧
      os'.contents i =
        tornHeader (os.contents i) (HeaderReady.write prevSeq prevSlot offset m) headerSlotLen ∧
      (os'.inodes i).durable = os'.contents i) ∨
    (∃ e n, r = .error e ∧ prevSeq + 1 < 2 ^ 64 ∧
      os'.contents i = tornHeader (os.contents i) (HeaderReady.write prevSeq prevSlot offset m) n ∧
      os'.failed = true) ∨
    ∃ e, r = .error e ∧ 2 ^ 64 ≤ prevSeq + 1 ∧ os' = os := by
  have hwhole : (HeaderReady.write prevSeq prevSlot offset m).bytes.take headerSlotLen =
      (HeaderReady.write prevSeq prevSlot offset m).bytes :=
    List.take_of_length_le (length_encodeSlot ..).le
  rcases nextHeader_cases prevSeq prevSlot offset m with ⟨hseq, hnext⟩ | ⟨hseq, e, hnext⟩
  · rw [writeHeader, Effect.bind_apply_of_ok (by rw [hnext]; rfl)] at h
    cases r with
    | ok out =>
      left
      obtain ⟨_, os₁, hseek, h⟩ := Effect.bind_eq_ok.mp h
      obtain ⟨-, rfl⟩ := Os.call_eq_ok.mp hseek
      obtain ⟨_, os₂, hwrite, h⟩ := Effect.bind_eq_ok.mp h
      obtain ⟨-, hle, rfl⟩ := Os.writeWith_eq_ok.mp hwrite
      obtain ⟨_, os₃, hsync, h⟩ := Effect.bind_eq_ok.mp h
      cases h
      rw [Os.sync] at hsync
      split at hsync
      next =>
        cases hsync
        refine ⟨rfl, hseq, ?_, ?_⟩
        · rw [Os.contents_setInode_self, Os.contents_setContents_self, tornHeader, hwhole]
          rfl
        · simp [Os.setInode, Os.contents]
      next => cases hsync
    | error e =>
      right
      left
      rcases Effect.bind_eq_error.mp h with hseek | ⟨_, os₁, hseek, h⟩
      · refine ⟨e, 0, rfl, hseq, ?_, ?_⟩
        · rw [Os.call_eq_error hseek]
          rfl
        · rw [Os.call_eq_error hseek]
          rfl
      obtain ⟨-, rfl⟩ := Os.call_eq_ok.mp hseek
      rcases Effect.bind_eq_error.mp h with hwrite | ⟨_, os₂, hwrite, h⟩
      · obtain ⟨n, rfl⟩ := Os.writeWith_eq_error hwrite
        refine ⟨e, n, rfl, hseq, ?_, rfl⟩
        rw [Os.contents_fail, Os.contents_setContents_self]
        rfl
      obtain ⟨-, hle, rfl⟩ := Os.writeWith_eq_ok.mp hwrite
      rcases Effect.bind_eq_error.mp h with hsync | ⟨_, os₃, hsync, h⟩
      · refine ⟨e, headerSlotLen, rfl, hseq, ?_, ?_⟩
        · rw [Os.sync_eq_error hsync, Os.contents_fail, Os.contents_pop,
            Os.contents_setContents_self, tornHeader, hwhole]
          rfl
        · rw [Os.sync_eq_error hsync]
          rfl
      · cases h
  · right
    right
    rw [writeHeader, Effect.bind_apply_of_error (by rw [hnext]; rfl)] at h
    cases h
    exact ⟨e, rfl, hseq, rfl⟩

end Container

namespace Wal

/-! ## Frames -/

theorem steps_append (i : ℕ) (r : WalRecord) : Effect.Steps (Os.Touches i) (append i r) :=
  Os.steps_bind (Os.steps_ofExcept i _) fun _ ↦ Os.steps_bind (Os.steps_call _ i) fun _ ↦
    Os.steps_bind (Os.steps_get i) fun _ ↦ Os.steps_bind (Os.steps_writeWith false _ i _ _) fun _ ↦
      Os.steps_sync _ i

/-- An append that succeeds has put a frame at the end of the file, and it is durable. -/
theorem append_eq_ok {i : ℕ} {r : WalRecord} {os os' : Os} (h : append i r os = (.ok (), os')) :
    r.Fits ∧ os'.contents i = os.contents i ++ frame r.serialize ∧
      (os'.contents i).length ≤ Os.maxLen ∧ (os'.inodes i).durable = os'.contents i := by
  rw [append, Effect.bind_eq_ok] at h
  obtain ⟨buf, os₁, hencode, h⟩ := h
  obtain ⟨hencode, rfl⟩ := Effect.ofExcept_eq_ok.mp hencode
  rw [Effect.bind_eq_ok] at h
  obtain ⟨_, os₂, hseek, h⟩ := h
  obtain ⟨-, rfl⟩ := Os.call_eq_ok.mp hseek
  rw [Effect.bind_apply_of_ok (Effect.get_apply _)] at h
  obtain ⟨_, os₃, hwrite, hsync⟩ := Effect.bind_eq_ok.mp h
  obtain ⟨-, hle, rfl⟩ := Os.writeWith_eq_ok.mp hwrite
  have hfits : r.Fits := by
    by_contra hfits
    obtain ⟨e, he⟩ := encodeFrame_of_not_fits hfits
    rw [he] at hencode
    cases hencode
  rw [encodeFrame_of_fits hfits] at hencode
  cases hencode
  have happend : (os₁.contents i).writeAt (os₁.contents i).length (frame r.serialize) =
      os₁.contents i ++ frame r.serialize := Bytes.writeAt_length ..
  rw [Os.sync] at hsync
  split at hsync
  next =>
    cases hsync
    rw [Os.contents_setInode_self, Os.contents_setContents_self]
    refine ⟨hfits, happend, ?_, ?_⟩
    · refine (congrArg List.length happend).trans_le ?_
      rw [List.length_append]
      exact hle
    · simp [Os.setInode]
  next => cases hsync

/-- An append that fails has put down a part of the frame. -/
theorem append_eq_error {i : ℕ} {r : WalRecord} {os os' : Os} {e : BknError}
    (h : append i r os = (.error e, os')) :
    (¬r.Fits ∧ os' = os) ∨
      (r.Fits ∧ os'.failed = true ∧ ∃ k, os'.contents i = os.contents i ++ (frame r.serialize).take k) := by
  rcases append_cases i r os with ⟨hfits, e', happend⟩ | ⟨hfits, happend, -⟩ |
    ⟨hfits, n, -, happend, -⟩ | ⟨hfits, -, -, happend⟩
  · rw [happend] at h
    cases h
    exact .inl ⟨hfits, rfl⟩
  · rw [happend] at h
    cases h
    exact .inr ⟨hfits, rfl, 0, by rw [List.take_zero, List.append_nil]; rfl⟩
  · rw [happend] at h
    cases h
    exact .inr ⟨hfits, rfl, n, by rw [Os.contents_fail, Os.contents_setContents_self]⟩
  · rw [happend] at h
    refine .inr ⟨hfits, ?_, (frame r.serialize).length, ?_⟩
    · rw [Os.sync_eq_error h]
      rfl
    · rw [Os.sync_eq_error h, List.take_length, Os.contents_fail, Os.contents_pop,
        Os.contents_setContents_self]

end Wal
