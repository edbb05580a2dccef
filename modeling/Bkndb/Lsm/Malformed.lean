import Bkndb.Lsm.SstOpen

/-!
# Malformed SSTables

The footer of a blob has no checksum, and the first format has none at all, so opening has to
distrust every number it reads. It does not distrust all of them: a sum with the length of the
footer may pass the largest integer, the marks of the first format are taken to ascend, and of the
blocks of the second format only the last is looked at. Every other blob is rejected as corrupt or
opened as a table whose blocks lie in its data section.

## Two formats

The end of a blob tells its format. Opening the second one checks a sum over the filter and the
index, so that what is read after it was written on purpose or fits by accident; opening the first
one checks nothing. In both the numbers of the footer come first, and are bounded by the length of
the blob before they are used, but for one sum.

## Main results

* `rejectedOrSound_iff`: the exact condition, over every blob in every file.
* `rejectedOrSound_iff_lastBlockTells` and `rejectedOrSound_iff_marksAscend`: its two halves, once
  the footer is taken.
-/

namespace Sst

/-! ## The parts of a blob

These are the slices that opening takes, for a blob of any bytes. They make sense before anything
is known about it. -/

/-- The blob ends in the magic of the second format. -/
def endsInMagic (blob : Bytes) : Bool :=
  decide (footerV2Len ≤ blob.length ∧ blob.slice (blob.length - 8) 8 = magicV2)

def blobFooterLen (blob : Bytes) : ℕ := if endsInMagic blob then footerV2Len else footerV1Len

def blobFooter (blob : Bytes) : Bytes :=
  blob.slice (blob.length - blobFooterLen blob) (blobFooterLen blob)

def blobBloomOffset (blob : Bytes) : ℕ := footerField (blobFooter blob) 0

def blobIndexOffset (blob : Bytes) : ℕ := footerField (blobFooter blob) 1

def blobIndexLen (blob : Bytes) : ℕ := footerField (blobFooter blob) 2

/-- The filter and the index. -/
def blobSections (blob : Bytes) : Bytes :=
  blob.slice (blobBloomOffset blob) (blobIndexOffset blob + blobIndexLen blob - blobBloomOffset blob)

def blobIndexBytes (blob : Bytes) : Bytes :=
  (blobSections blob).drop (blobIndexOffset blob - blobBloomOffset blob)

/-! ## What opening relies on

Each condition is a comparison of numbers that stand in the blob. All of them are decidable. -/

/-- The end of the index is an integer, and with the footer behind it is not. -/
def FooterWraps (blob : Bytes) : Prop :=
  footerV1Len ≤ blob.length ∧ blobBloomOffset blob ≤ blobIndexOffset blob ∧
    blobIndexOffset blob + blobIndexLen blob < 2 ^ 64 ∧
    2 ^ 64 ≤ blobIndexOffset blob + blobIndexLen blob + blobFooterLen blob

/-- The numbers of the footer are taken. -/
def FooterFits (blob : Bytes) : Prop :=
  footerV1Len ≤ blob.length ∧ blobBloomOffset blob ≤ blobIndexOffset blob ∧
    blobIndexOffset blob + blobIndexLen blob + blobFooterLen blob ≤ blob.length

/-- The checksum, if there is one, matches, and the filter is one. -/
def SectionsPass (blob : Bytes) : Prop :=
  (endsInMagic blob = true →
    crc32 (blobSections blob) = Bytes.ofBe ((blobFooter blob).slice 24 4)) ∧
  (BloomFilter.codec.deserialize
    ((blobSections blob).take (blobIndexOffset blob - blobBloomOffset blob))).isSome = true

/-- The marks of the first format ascend up to the end of the data section. -/
def MarksAscend (blob : Bytes) : Prop :=
  ∀ minKey maxKey marks, legacyIndexCodec.deserialize (blobIndexBytes blob) =
    some (minKey, maxKey, marks) → (marks.map Prod.snd ++ [blobBloomOffset blob]).IsChain (· ≤ ·)

/-- The last block of the second format tells for all: its end is an integer, and if that is in the
data section, so are the ends of the others. -/
def LastBlockTells (blob : Bytes) : Prop :=
  ∀ index, IndexV2.codec.deserialize (blobIndexBytes blob) = some index →
    ∀ last, index.blocks.getLast? = some last → last.offset + last.storedLen < 2 ^ 64 ∧
      (last.offset + last.storedLen ≤ blobBloomOffset blob →
        ∀ b ∈ index.blocks, b.offset + b.storedLen ≤ blobBloomOffset blob)

/-- **What opening takes on trust.** -/
def Trustworthy (blob : Bytes) : Prop :=
  ¬FooterWraps blob ∧ (FooterFits blob → SectionsPass blob →
    if endsInMagic blob then LastBlockTells blob else MarksAscend blob)

instance (blob : Bytes) : Decidable (FooterWraps blob) :=
  inferInstanceAs (Decidable (_ ∧ _ ∧ _ ∧ _))

instance (blob : Bytes) : Decidable (FooterFits blob) := inferInstanceAs (Decidable (_ ∧ _ ∧ _))

instance (blob : Bytes) : Decidable (SectionsPass blob) := inferInstanceAs (Decidable ((_ → _) ∧ _))

instance (blob : Bytes) : Decidable (MarksAscend blob) :=
  decidable_of_iff (∀ parts ∈ legacyIndexCodec.deserialize (blobIndexBytes blob),
      (parts.2.2.map Prod.snd ++ [blobBloomOffset blob]).IsChain (· ≤ ·))
    ⟨fun h minKey maxKey marks hmarks ↦ h (minKey, maxKey, marks) hmarks,
      fun h _ hparts ↦ h _ _ _ hparts⟩

instance (blob : Bytes) : Decidable (LastBlockTells blob) :=
  inferInstanceAs (Decidable (∀ index ∈ IndexV2.codec.deserialize (blobIndexBytes blob),
    ∀ last ∈ index.blocks.getLast?, last.offset + last.storedLen < 2 ^ 64 ∧
      (last.offset + last.storedLen ≤ blobBloomOffset blob →
        ∀ b ∈ index.blocks, b.offset + b.storedLen ≤ blobBloomOffset blob)))

instance (blob : Bytes) : Decidable (Trustworthy blob) := inferInstanceAs (Decidable (¬_ ∧ (_ → _)))

variable [Lz4]

/-- A blob is rejected as corrupt, or opened as a table whose blocks lie in its data section, so
that reading them overflows nowhere. -/
def RejectedOrSound (file : Bytes) (generation base len : ℕ) : Prop :=
  match openHandle file generation base len with
  | .error (.corruption _) => True
  | .error _ => False
  | .ok h => ∀ i b, h.blocks[i]? = some b →
    b.offset + b.storedLen ≤ blobBloomOffset (file.slice base len) ∧
      ∀ message, h.blockBytes i b ≠ .error (.panic message)

/-! ## Opening, by the parts -/

omit [Lz4] in
theorem readAt_inside {file : Bytes} {generation base len offset n : ℕ}
    (hinside : base + len ≤ file.length) (hlen : file.length < 2 ^ 64) (hle : offset + n ≤ len) :
    readAt file generation base offset n = .ok ((file.slice base len).slice offset n) := by
  have hslice : (file.slice base len).slice offset n = file.slice (base + offset) n := by
    rw [Bytes.slice, Bytes.slice, Bytes.slice, List.drop_take, List.take_take, List.drop_drop,
      Nat.min_eq_left (by omega)]
  rw [readAt, checkedAdd, if_pos (by omega), Except.ok_bind, if_neg (by omega), hslice]
  rfl

omit [Lz4] in
/-- The runs between marks: their ends are at the next mark, if the marks ascend. -/
theorem legacyBlocks_cases (marks : List (Bytes × ℕ)) (dataEnd : ℕ) :
    ((marks.map Prod.snd ++ [dataEnd]).IsChain (· ≤ ·) ∧ ∃ blocks,
      legacyBlocks marks dataEnd = .ok blocks ∧ ∀ b ∈ blocks, b.offset + b.storedLen ≤ dataEnd) ∨
    (¬(marks.map Prod.snd ++ [dataEnd]).IsChain (· ≤ ·) ∧
      ∃ message, legacyBlocks marks dataEnd = .error (.panic message)) := by
  induction marks with
  | nil => exact .inl ⟨List.isChain_singleton _, [], rfl, by simp⟩
  | cons mark marks ih =>
    obtain ⟨firstKey, offset⟩ := mark
    set stop := (marks.head?.map Prod.snd).getD dataEnd with hstop
    have hhead : (marks.map Prod.snd ++ [dataEnd]).head? = some stop := by
      rw [hstop]
      cases marks <;> rfl
    have hchain : (((firstKey, offset) :: marks).map Prod.snd ++ [dataEnd]).IsChain (· ≤ ·) ↔
        offset ≤ stop ∧ (marks.map Prod.snd ++ [dataEnd]).IsChain (· ≤ ·) := by
      rw [List.map_cons, List.cons_append, List.isChain_cons, hhead]
      simp
    rw [hchain, legacyBlocks]
    dsimp only
    rw [← hstop]
    by_cases hlt : stop < offset
    · right
      rw [if_pos hlt]
      exact ⟨fun h ↦ absurd h.1 (not_le.mpr hlt), _, rfl⟩
    · rw [if_neg hlt]
      rcases ih with ⟨hasc, blocks, hblocks, hends⟩ | ⟨hasc, message, hpanic⟩
      · left
        refine ⟨⟨not_lt.mp hlt, hasc⟩, _, by rw [hblocks]; rfl, ?_⟩
        have hle : stop ≤ dataEnd := by
          have hpair := List.isChain_iff_pairwise.mp hasc
          cases hm : marks with
          | nil => rw [hstop, hm]; rfl
          | cons m ms =>
            rw [hm, List.map_cons, List.cons_append, List.pairwise_cons] at hpair
            rw [hstop, hm]
            exact hpair.1 _ (List.mem_append_right _ (List.mem_singleton_self _))
        intro b hb
        rcases List.mem_cons.mp hb with rfl | hb
        · dsimp only
          omega
        · exact hends b hb
      · right
        refine ⟨fun h ↦ hasc h.2, message, ?_⟩
        rw [hpanic]
        rfl

section

variable {file : Bytes} {generation base len : ℕ}

omit [Lz4] in
theorem isV2_inside (hinside : base + len ≤ file.length) (hlen : file.length < 2 ^ 64) :
    isV2 file generation base len = .ok (endsInMagic (file.slice base len)) := by
  have hblob : (file.slice base len).length = len := Bytes.length_slice_of_le hinside
  have hpos : 8 ≤ footerV2Len := by decide
  rw [isV2, endsInMagic, hblob]
  by_cases hle : footerV2Len ≤ len
  · rw [if_pos hle, readAt_inside hinside hlen (by omega)]
    simp [Except.map, hle]
  · rw [if_neg hle]
    simp [hle]

theorem rejectedOrSound_of_corrupt {what : String}
    (h : openHandle file generation base len = .error (corrupt generation what)) :
    RejectedOrSound file generation base len := by
  rw [RejectedOrSound, h, corrupt]
  trivial

theorem not_rejectedOrSound_of_panic {message : String}
    (h : openHandle file generation base len = .error (.panic message)) :
    ¬RejectedOrSound file generation base len := by
  rw [RejectedOrSound, h]
  exact not_false

omit [Lz4] in
/-- With the footer taken, everything up to the index is read as the parts say. -/
theorem openHandle_of_footerFits (hinside : base + len ≤ file.length) (hlen : file.length < 2 ^ 64)
    (hfits : FooterFits (file.slice base len)) :
    openHandle file generation base len =
      if endsInMagic (file.slice base len) ∧ crc32 (blobSections (file.slice base len)) ≠
          Bytes.ofBe ((blobFooter (file.slice base len)).slice 24 4) then
        .error (corrupt generation ": bloom/index checksum mismatch")
      else do
        let bloom ← Except.ofOption (corrupt generation ": undecodable")
          (BloomFilter.codec.deserialize ((blobSections (file.slice base len)).take
            (blobIndexOffset (file.slice base len) - blobBloomOffset (file.slice base len))))
        let (blocks, entryCount, minKey, maxKey) ← readIndex generation
          (endsInMagic (file.slice base len)) (blobIndexBytes (file.slice base len))
          (blobBloomOffset (file.slice base len))
        checkLastBlock generation blocks (blobBloomOffset (file.slice base len))
        return { mmap := file, baseOffset := base, blobLen := len, bloom, blocks, entryCount, minKey,
                 maxKey, generation } := by
  have hblob : (file.slice base len).length = len := Bytes.length_slice_of_le hinside
  obtain ⟨hmin, hle, hend⟩ := hfits
  set blob := file.slice base len with hset
  have hfooter : readAt file generation base (len - blobFooterLen blob) (blobFooterLen blob) =
      .ok (blobFooter blob) := by
    rw [readAt_inside hinside hlen (by omega), blobFooter, hblob]
  have hsections : readAt file generation base (blobBloomOffset blob)
      (blobIndexOffset blob + blobIndexLen blob - blobBloomOffset blob) = .ok (blobSections blob) :=
    readAt_inside hinside hlen (by omega)
  have hstop : checkedAdd (blobIndexOffset blob + blobIndexLen blob) (blobFooterLen blob) =
      .ok (blobIndexOffset blob + blobIndexLen blob + blobFooterLen blob) :=
    checkedAdd_eq_ok.mpr ⟨by omega, rfl⟩
  rw [openHandle, if_neg (by omega), isV2_inside hinside hlen, ← hset]
  simp only [Except.ok_bind]
  rw [← blobFooterLen, hfooter]
  simp only [Except.ok_bind]
  rw [← blobBloomOffset, ← blobIndexOffset, ← blobIndexLen, if_neg (by omega), hstop]
  simp only [Except.ok_bind]
  rw [if_neg (by omega), hsections]
  simp only [Except.ok_bind]
  rw [← blobIndexBytes]
  by_cases hcrc : endsInMagic blob = true ∧
      crc32 (blobSections blob) ≠ Bytes.ofBe ((blobFooter blob).slice 24 4)
  · rw [if_pos hcrc, if_pos hcrc]
    rfl
  · rw [if_neg hcrc, if_neg hcrc]

omit [Lz4] in
/-- A blob whose footer is not taken is rejected as corrupt, unless the sum wraps. -/
theorem openHandle_of_not_footerFits (hinside : base + len ≤ file.length)
    (hlen : file.length < 2 ^ 64) (hfits : ¬FooterFits (file.slice base len)) :
    (¬FooterWraps (file.slice base len) ∧
      ∃ what, openHandle file generation base len = .error (corrupt generation what)) ∨
    (FooterWraps (file.slice base len) ∧
      ∃ message, openHandle file generation base len = .error (.panic message)) := by
  have hblob : (file.slice base len).length = len := Bytes.length_slice_of_le hinside
  set blob := file.slice base len with hset
  by_cases hmin : len < footerV1Len
  · left
    refine ⟨fun h ↦ ?_, " is too small to contain a footer", ?_⟩
    · have hle := h.1
      omega
    · rw [openHandle, if_pos hmin]
      rfl
  have hfooterLen : blobFooterLen blob ≤ len := by
    rw [blobFooterLen]
    split
    next hmagic =>
      have hle := (of_decide_eq_true hmagic).1
      omega
    next => omega
  have hfooter : readAt file generation base (len - blobFooterLen blob) (blobFooterLen blob) =
      .ok (blobFooter blob) := by
    rw [readAt_inside hinside hlen (by omega), blobFooter, hblob]
  rw [openHandle, if_neg hmin, isV2_inside hinside hlen, ← hset]
  simp only [Except.ok_bind]
  rw [← blobFooterLen, hfooter]
  simp only [Except.ok_bind]
  rw [← blobBloomOffset, ← blobIndexOffset, ← blobIndexLen]
  by_cases hbad : blobIndexOffset blob < blobBloomOffset blob ∨
      2 ^ 64 ≤ blobIndexOffset blob + blobIndexLen blob
  · left
    rw [if_pos hbad]
    refine ⟨fun hwraps ↦ ?_, " has an inconsistent footer", rfl⟩
    obtain ⟨_, hle, hlt, _⟩ := hwraps
    omega
  rw [if_neg hbad]
  by_cases hwraps : 2 ^ 64 ≤ blobIndexOffset blob + blobIndexLen blob + blobFooterLen blob
  · right
    rw [checkedAdd, if_neg (not_lt.mpr hwraps)]
    exact ⟨⟨by omega, by omega, by omega, hwraps⟩, _, rfl⟩
  · left
    refine ⟨fun h ↦ hwraps h.2.2.2, " has an inconsistent footer", ?_⟩
    rw [checkedAdd, if_pos (not_le.mp hwraps)]
    simp only [Except.ok_bind]
    rw [if_pos]
    · rfl
    · by_contra hle
      exact hfits ⟨by omega, by omega, by omega⟩

end

theorem blockBytes_ne_panic {h : SstableHandle} {b : Block} {bound : ℕ}
    (hb : b.offset + b.storedLen ≤ bound) (hbase : h.baseOffset + bound < 2 ^ 64) (i : ℕ)
    (message : String) : h.blockBytes i b ≠ .error (.panic message) := by
  rw [SstableHandle.blockBytes, checkedAdd, if_pos (by omega), Except.ok_bind, checkedAdd,
    if_pos (by omega), Except.ok_bind]
  dsimp only
  intro hpanic
  split at hpanic
  next => cases hpanic
  next =>
    split at hpanic
    next => cases hpanic
    next =>
      split at hpanic
      next =>
        revert hpanic
        cases Lz4.decompress (h.mmap.slice (h.baseOffset + b.offset) b.storedLen) b.rawLen with
        | none => exact fun hpanic ↦ by cases hpanic
        | some raw => exact fun hpanic ↦ by cases hpanic
      next => cases hpanic

omit [Lz4] in
theorem checkLastBlock_cases (generation : ℕ) (blocks : List Block) (bloomOffset : ℕ) :
    (checkLastBlock generation blocks bloomOffset = .ok () ∧
      ∀ last, blocks.getLast? = some last →
        last.offset + last.storedLen < 2 ^ 64 ∧ last.offset + last.storedLen ≤ bloomOffset) ∨
    (∃ last, blocks.getLast? = some last ∧
      ((last.offset + last.storedLen < 2 ^ 64 ∧ bloomOffset < last.offset + last.storedLen ∧
        checkLastBlock generation blocks bloomOffset =
          .error (corrupt generation ": block index points past the data section")) ∨
      (2 ^ 64 ≤ last.offset + last.storedLen ∧ checkLastBlock generation blocks bloomOffset =
          .error (.panic "attempt to add with overflow")))) := by
  rw [checkLastBlock]
  cases hlast : blocks.getLast? with
  | none => exact .inl ⟨rfl, by simp⟩
  | some last =>
    dsimp only
    rw [checkedAdd]
    by_cases hlt : last.offset + last.storedLen < 2 ^ 64
    · rw [if_pos hlt, Except.ok_bind]
      by_cases hpast : bloomOffset < last.offset + last.storedLen
      · right
        rw [if_pos hpast]
        exact ⟨last, rfl, .inl ⟨hlt, hpast, rfl⟩⟩
      · left
        rw [if_neg hpast]
        refine ⟨rfl, fun last' hlast' ↦ ?_⟩
        obtain rfl := Option.some.inj hlast'
        exact ⟨hlt, not_lt.mp hpast⟩
    · right
      rw [if_neg hlt]
      exact ⟨last, rfl, .inr ⟨not_lt.mp hlt, rfl⟩⟩

theorem rejectedOrSound_iff_last {file : Bytes} {generation base len : ℕ} {blocks : List Block}
    {h : SstableHandle}
    (hopen : openHandle file generation base len = do
      checkLastBlock generation blocks (blobBloomOffset (file.slice base len))
      return h)
    (hblocks : h.blocks = blocks) (hbase : h.baseOffset = base)
    (hbound : base + blobBloomOffset (file.slice base len) < 2 ^ 64) :
    RejectedOrSound file generation base len ↔ ∀ last, blocks.getLast? = some last →
      last.offset + last.storedLen < 2 ^ 64 ∧
        (last.offset + last.storedLen ≤ blobBloomOffset (file.slice base len) →
          ∀ b ∈ blocks, b.offset + b.storedLen ≤ blobBloomOffset (file.slice base len)) := by
  rcases checkLastBlock_cases generation blocks (blobBloomOffset (file.slice base len)) with
    ⟨hcheck, hlast⟩ | ⟨last, hlast, ⟨hlt, hpast, hcheck⟩ | ⟨hwraps, hcheck⟩⟩
  · rw [hcheck] at hopen
    have hok : openHandle file generation base len = .ok h := hopen
    rw [RejectedOrSound, hok]
    dsimp only
    rw [hblocks]
    constructor
    · intro hsound last' hlast'
      refine ⟨(hlast last' hlast').1, fun _ b hb ↦ ?_⟩
      obtain ⟨i, hi⟩ := List.mem_iff_getElem?.mp hb
      exact (hsound i b hi).1
    · intro htells i b hi
      have hin : b.offset + b.storedLen ≤ blobBloomOffset (file.slice base len) := by
        have hmem := List.mem_of_getElem? hi
        obtain ⟨last', hlast'⟩ : ∃ last', blocks.getLast? = some last' := by
          cases hl : blocks.getLast? with
          | none =>
            rw [List.getLast?_eq_none_iff.mp hl] at hmem
            cases hmem
          | some last' => exact ⟨last', rfl⟩
        exact (htells last' hlast').2 (hlast last' hlast').2 b hmem
      exact ⟨hin, blockBytes_ne_panic hin (by rw [hbase]; exact hbound) i⟩
  · rw [hcheck] at hopen
    refine iff_of_true (rejectedOrSound_of_corrupt hopen) fun last' hlast' ↦ ?_
    obtain rfl := Option.some.inj (hlast.symm.trans hlast')
    exact ⟨hlt, fun hle ↦ absurd hpast (not_lt.mpr hle)⟩
  · rw [hcheck] at hopen
    refine iff_of_false (not_rejectedOrSound_of_panic hopen) fun htells ↦ ?_
    exact absurd (htells last hlast).1 (not_lt.mpr hwraps)

section

variable {file : Bytes} {generation base len : ℕ} {bloom : BloomFilter}

/-- The second format, once the filter is read. -/
theorem rejectedOrSound_iff_lastBlockTells
    (hopen : openHandle file generation base len = do
      let (blocks, entryCount, minKey, maxKey) ← readIndex generation true
        (blobIndexBytes (file.slice base len)) (blobBloomOffset (file.slice base len))
      checkLastBlock generation blocks (blobBloomOffset (file.slice base len))
      return { mmap := file, baseOffset := base, blobLen := len, bloom, blocks, entryCount, minKey,
               maxKey, generation })
    (hbound : base + blobBloomOffset (file.slice base len) < 2 ^ 64) :
    RejectedOrSound file generation base len ↔ LastBlockTells (file.slice base len) := by
  set blob := file.slice base len with hset
  rw [readIndex, if_pos rfl] at hopen
  cases hindex : IndexV2.codec.deserialize (blobIndexBytes blob) with
  | none =>
    rw [hindex] at hopen
    refine iff_of_true (rejectedOrSound_of_corrupt hopen) fun index h ↦ ?_
    rw [hindex] at h
    cases h
  | some index =>
    rw [hindex] at hopen
    simp only [Except.ofOption, Except.ok_bind] at hopen
    have htells : LastBlockTells blob ↔ ∀ last, index.blocks.getLast? = some last →
        last.offset + last.storedLen < 2 ^ 64 ∧
          (last.offset + last.storedLen ≤ blobBloomOffset blob →
            ∀ b ∈ index.blocks, b.offset + b.storedLen ≤ blobBloomOffset blob) := by
      rw [LastBlockTells, hindex]
      exact ⟨fun h ↦ h index rfl, fun h index' h' ↦ Option.some.inj h' ▸ h⟩
    rw [htells, rejectedOrSound_iff_last hopen rfl rfl hbound, ← hset, List.getLast?_map]
    constructor
    · intro h last hlast
      obtain ⟨hlt, hall⟩ := h (Block.ofMeta last) (by rw [hlast]; rfl)
      exact ⟨hlt, fun hin b hb ↦ hall hin (Block.ofMeta b) (List.mem_map_of_mem hb)⟩
    · intro h last hlast
      obtain ⟨last', hlast', rfl⟩ := Option.map_eq_some_iff.mp hlast
      obtain ⟨hlt, hall⟩ := h last' hlast'
      refine ⟨hlt, fun hin b hb ↦ ?_⟩
      obtain ⟨b', hb', rfl⟩ := List.mem_map.mp hb
      exact hall hin b' hb'

/-- The first format, once the filter is read: the check of the last block says nothing new. -/
theorem rejectedOrSound_iff_marksAscend
    (hopen : openHandle file generation base len = do
      let (blocks, entryCount, minKey, maxKey) ← readIndex generation false
        (blobIndexBytes (file.slice base len)) (blobBloomOffset (file.slice base len))
      checkLastBlock generation blocks (blobBloomOffset (file.slice base len))
      return { mmap := file, baseOffset := base, blobLen := len, bloom, blocks, entryCount, minKey,
               maxKey, generation })
    (hbound : base + blobBloomOffset (file.slice base len) < 2 ^ 64) :
    RejectedOrSound file generation base len ↔ MarksAscend (file.slice base len) := by
  set blob := file.slice base len with hset
  rw [readIndex, if_neg Bool.false_ne_true] at hopen
  cases hindex : legacyIndexCodec.deserialize (blobIndexBytes blob) with
  | none =>
    rw [hindex] at hopen
    refine iff_of_true (rejectedOrSound_of_corrupt hopen) fun minKey maxKey marks h ↦ ?_
    rw [hindex] at h
    cases h
  | some parts =>
    obtain ⟨minKey, maxKey, marks⟩ := parts
    rw [hindex] at hopen
    simp only [Except.ofOption, Except.ok_bind] at hopen
    have hascend : MarksAscend blob ↔
        (marks.map Prod.snd ++ [blobBloomOffset blob]).IsChain (· ≤ ·) := by
      rw [MarksAscend, hindex]
      refine ⟨fun h ↦ h _ _ _ rfl, fun h _ _ marks' h' ↦ ?_⟩
      cases h'
      exact h
    rw [hascend]
    rcases legacyBlocks_cases marks (blobBloomOffset blob) with
      ⟨hasc, blocks, hblocks, hends⟩ | ⟨hasc, message, hpanic⟩
    · rw [hblocks] at hopen
      refine iff_of_true ((rejectedOrSound_iff_last hopen rfl rfl hbound).mpr ?_) hasc
      intro last hlast
      have hlast' := hends last (List.mem_of_getLast? hlast)
      exact ⟨by omega, fun _ ↦ hends⟩
    · rw [hpanic] at hopen
      exact iff_of_false (not_rejectedOrSound_of_panic hopen) hasc

end

/-- **Malformed SSTables.** Opening a blob inside a file rejects it as corrupt, or gives a table whose
blocks lie in the data section, exactly if the sum of the footer does not wrap and, in a blob that
passes the checks before, the list of blocks is what opening takes it to be. -/
theorem rejectedOrSound_iff (file : Bytes) (generation base len : ℕ)
    (hinside : base + len ≤ file.length) (hfile : file.length ≤ Os.maxLen) :
    RejectedOrSound file generation base len ↔ Trustworthy (file.slice base len) := by
  have hlen : file.length < 2 ^ 64 := lt_of_le_of_lt hfile (by decide)
  by_cases hfits : FooterFits (file.slice base len)
  swap
  · rcases @openHandle_of_not_footerFits _ generation _ _ hinside hlen hfits with
      ⟨hwraps, what, hopen⟩ | ⟨hwraps, message, hopen⟩
    · exact iff_of_true (rejectedOrSound_of_corrupt hopen) ⟨hwraps, fun h ↦ absurd h hfits⟩
    · exact iff_of_false (not_rejectedOrSound_of_panic hopen) fun h ↦ h.1 hwraps
  have hblob : (file.slice base len).length = len := Bytes.length_slice_of_le hinside
  have hopen := @openHandle_of_footerFits _ generation _ _ hinside hlen hfits
  obtain ⟨hmin, hle, hend⟩ := hfits
  set blob := file.slice base len with hset
  have hwraps : ¬FooterWraps blob := fun h ↦ by
    have hbig := h.2.2.2
    omega
  have hbound : base + blobBloomOffset (file.slice base len) < 2 ^ 64 := by
    rw [← hset]
    omega
  have hiff : Trustworthy blob ↔
      (SectionsPass blob → if endsInMagic blob then LastBlockTells blob else MarksAscend blob) :=
    ⟨fun h ↦ h.2 ⟨hmin, hle, hend⟩, fun h ↦ ⟨hwraps, fun _ ↦ h⟩⟩
  rw [hiff]
  by_cases hcrc : endsInMagic blob = true ∧
      crc32 (blobSections blob) ≠ Bytes.ofBe ((blobFooter blob).slice 24 4)
  · rw [if_pos hcrc] at hopen
    exact iff_of_true (rejectedOrSound_of_corrupt hopen) fun h ↦ absurd (h.1 hcrc.1) hcrc.2
  rw [if_neg hcrc] at hopen
  cases hbloom : BloomFilter.codec.deserialize
      ((blobSections blob).take (blobIndexOffset blob - blobBloomOffset blob)) with
  | none =>
    rw [hbloom] at hopen
    refine iff_of_true (rejectedOrSound_of_corrupt hopen) fun h ↦ ?_
    have hsome := h.2
    rw [hbloom] at hsome
    cases hsome
  | some bloom =>
    have hpass : SectionsPass blob :=
      ⟨fun hmagic ↦ not_not.mp fun hne ↦ hcrc ⟨hmagic, hne⟩, by rw [hbloom]; rfl⟩
    rw [hbloom] at hopen
    simp only [Except.ofOption, Except.ok_bind] at hopen
    rw [forall_prop_of_true hpass]
    cases hmagic : endsInMagic blob with
    | true =>
      rw [hmagic] at hopen
      rw [if_pos rfl]
      exact rejectedOrSound_iff_lastBlockTells hopen hbound
    | false =>
      rw [hmagic] at hopen
      rw [if_neg Bool.false_ne_true]
      exact rejectedOrSound_iff_marksAscend hopen hbound

end Sst

/-! ## Two blobs -/

namespace Sst.Malformed

local instance : Lz4 := Lz4.stored

/-- The size of a filter for two items. -/
local instance : BloomSizing where
  bits _ := 20
  hashes _ _ := 22

/-- A footer of the first format and nothing else. -/
def footerOnly (bloomOffset indexOffset indexLen : ℕ) : Bytes :=
  Bytes.be 8 bloomOffset ++ Bytes.be 8 indexOffset ++ Bytes.be 8 indexLen

/-- A table with a block for each of its two entries. -/
def twoBlocks : Bytes :=
  (write 0 1 [.ok ([1], .value [7]), .ok ([2], .tombstone)] 2 ⟨1, true⟩ {}).2.contents 0

set_option maxRecDepth 8000 in
/-- A footer over empty sections is rejected, there being no filter; a table of two blocks is opened. -/
theorem rejectedOrSound_blobs : RejectedOrSound (footerOnly 0 0 0) 1 0 24 ∧
    (∃ h, openHandle twoBlocks 1 0 twoBlocks.length = .ok h ∧ h.blocks.length = 2) ∧
    RejectedOrSound twoBlocks 1 0 twoBlocks.length := by
  have hopen : (openHandle twoBlocks 1 0 twoBlocks.length).toOption.any
      (fun h ↦ decide (h.blocks.length = 2)) = true := by decide +kernel
  obtain ⟨h, hh, hlen⟩ := Except.any_toOption.mp hopen
  refine ⟨(rejectedOrSound_iff _ 1 0 24 (by decide +kernel) (by decide +kernel)).mpr
    (by decide +kernel), ⟨h, hh, of_decide_eq_true hlen⟩, (rejectedOrSound_iff _ 1 0 _
      (by decide +kernel) (by decide +kernel)).mpr (by decide +kernel)⟩

/-- An index that ends one byte below the largest integer: with the footer behind it the sum wraps. -/
theorem not_rejectedOrSound_footerOnly :
    ¬∀ (file : Bytes) (generation base len : ℕ), base + len ≤ file.length →
      file.length ≤ Os.maxLen → RejectedOrSound file generation base len := by
  intro h
  have hinside : 0 + 24 ≤ (footerOnly 0 (2 ^ 64 - 1) 0).length := by decide +kernel
  have hlen : (footerOnly 0 (2 ^ 64 - 1) 0).length ≤ Os.maxLen := by decide +kernel
  have hwraps : FooterWraps ((footerOnly 0 (2 ^ 64 - 1) 0).slice 0 24) :=
    ⟨by decide +kernel, by decide +kernel, by decide +kernel, by decide +kernel⟩
  have hfits : ¬FooterFits ((footerOnly 0 (2 ^ 64 - 1) 0).slice 0 24) := fun hf ↦
    absurd hf.2.2 (by decide +kernel)
  rcases @openHandle_of_not_footerFits _ 1 _ _ hinside (by decide +kernel) hfits with
    ⟨hnot, -⟩ | ⟨-, message, hopen⟩
  · exact hnot hwraps
  · exact not_rejectedOrSound_of_panic hopen (h _ 1 0 24 hinside hlen)

end Sst.Malformed
