import Bkndb.Lsm.SstWrite

/-!
# Opening an SSTable

What a writer put into a file is found there again, wherever in the file it lies and whatever has
been written behind it since: the footer is at the end of the blob, the filter and the index where
the footer says, and the blocks before them.

## Wherever it lies

A table keeps its meaning when it is moved or when something is written behind it: offsets in it
are counted from its beginning, and the footer is found from its end. So opening is described for a
file that contains the blob anywhere.

## Main results

* `openHandle_write`: the second format, which gives back the handle that the write itself gave
  out.
* `openHandle_blobV1`: the first format, for short entries and an index whose length is not taken
  for the magic of the second.
-/

namespace Sst

open Layers

/-- A part of a blob given by what stands before and behind it. -/
theorem readAt_of_eq {file : Bytes} {generation base offset len : ℕ} (a b c : Bytes)
    (hfile : file = a ++ (b ++ c)) (ha : a.length = base + offset) (hb : b.length = len)
    (hlen : file.length < 2 ^ 64) : readAt file generation base offset len = .ok b := by
  have hfl : file.length = a.length + (b.length + c.length) := by
    rw [hfile, List.length_append, List.length_append]
  rw [readAt, checkedAdd, if_pos (by omega), Except.ok_bind, if_neg (by omega),
    Bytes.slice_of_eq a b c hfile ha hb]
  rfl

theorem footerField_of_eq {footer : Bytes} (a c : Bytes) {i n : ℕ}
    (hfooter : footer = a ++ (Bytes.be 8 n ++ c)) (ha : a.length = i * 8) (hn : n < 2 ^ 64) :
    footerField footer i = n := by
  rw [footerField, Bytes.slice_of_eq a (Bytes.be 8 n) c hfooter ha (Bytes.length_be ..),
    Bytes.ofBe_be_of_lt (lt_of_lt_of_eq hn (by norm_num))]

theorem length_magicV2 : magicV2.length = 8 := by decide +kernel

/-! ## The index section -/

theorem length_encode_blockMeta (m : BlockMeta) : 1 ≤ (BlockMeta.codec.encode m).length := by
  change 1 ≤ (Codec.bytes.encode m.firstKey ++ _).length
  rw [List.length_append, Codec.length_encode_bytes]
  omega

theorem length_le_encode_list {α : Type} (c : Codec α) (hpos : ∀ a, 1 ≤ (c.encode a).length)
    (l : List α) : l.length ≤ ((Codec.list c).encode l).length := by
  change l.length ≤ (Codec.u64.encode l.length ++ l.flatMap c.encode).length
  rw [List.length_append, Codec.length_encode_u64]
  have h : l.length ≤ (l.flatMap c.encode).length := by
    induction l with
    | nil => exact le_rfl
    | cons a l ih =>
      rw [List.flatMap_cons, List.length_append, List.length_cons]
      have := hpos a
      omega
  omega

/-! ## Sections -/

/-- Opening a blob that consists of a data section, a filter, an index and a footer that says where
they are. -/
theorem openHandle_of_sections {file before data bloomBytes indexBytes more after : Bytes}
    {generation : ℕ} {v2 : Bool} {bloom : BloomFilter} {blocks : List Block} {count : Option ℕ}
    {minKey maxKey footer : Bytes}
    (hfooter : footer = Bytes.be 8 data.length ++ (Bytes.be 8 (data.length + bloomBytes.length) ++
      (Bytes.be 8 indexBytes.length ++ more)))
    (hfile : file = before ++ (data ++ (bloomBytes ++ (indexBytes ++ (footer ++ after)))))
    (hlen : file.length < 2 ^ 64) (hmore : footer.length = if v2 then footerV2Len else footerV1Len)
    (hv2 : isV2 file generation before.length
      (data.length + bloomBytes.length + indexBytes.length + footer.length) = .ok v2)
    (hcrc : v2 = true → Bytes.ofBe (footer.slice 24 4) = crc32 (bloomBytes ++ indexBytes))
    (hbloom : BloomFilter.codec.deserialize bloomBytes = some bloom)
    (hindex : readIndex generation v2 indexBytes data.length = .ok (blocks, count, minKey, maxKey))
    (hblocks : ∀ b ∈ blocks, b.offset + b.storedLen ≤ data.length) :
    openHandle file generation before.length
        (data.length + bloomBytes.length + indexBytes.length + footer.length) =
      .ok { mmap := file, baseOffset := before.length
            blobLen := data.length + bloomBytes.length + indexBytes.length + footer.length
            bloom, blocks, entryCount := count, minKey, maxKey, generation } := by
  have hfl : file.length = before.length + (data.length + (bloomBytes.length +
      (indexBytes.length + (footer.length + after.length)))) := by
    simp only [hfile, List.length_append]
  have hbig : footerV1Len ≤ footer.length := by
    rw [hmore]
    split <;> decide
  have hread : readAt file generation before.length
      (data.length + bloomBytes.length + indexBytes.length + footer.length - footer.length)
      footer.length = .ok footer :=
    readAt_of_eq (before ++ (data ++ (bloomBytes ++ indexBytes))) footer after
      (by simp only [hfile, List.append_assoc])
      (by simp only [List.length_append]; omega) rfl hlen
  have hfield₀ : footerField footer 0 = data.length :=
    footerField_of_eq [] _ hfooter rfl (by omega)
  have hfield₁ : footerField footer 1 = data.length + bloomBytes.length :=
    footerField_of_eq (Bytes.be 8 data.length) _ hfooter (Bytes.length_be ..) (by omega)
  have hfield₂ : footerField footer 2 = indexBytes.length :=
    footerField_of_eq (Bytes.be 8 data.length ++ Bytes.be 8 (data.length + bloomBytes.length)) more
      (by rw [hfooter, List.append_assoc])
      (by rw [List.length_append, Bytes.length_be, Bytes.length_be]) (by omega)
  have hsections : readAt file generation before.length data.length
      (data.length + bloomBytes.length + indexBytes.length - data.length) =
        .ok (bloomBytes ++ indexBytes) :=
    readAt_of_eq (before ++ data) (bloomBytes ++ indexBytes) (footer ++ after)
      (by simp only [hfile, List.append_assoc]) (List.length_append ..)
      (by rw [List.length_append]; omega) hlen
  have htake : (bloomBytes ++ indexBytes).take (data.length + bloomBytes.length - data.length) =
      bloomBytes := List.take_left' (by omega)
  have hdrop : (bloomBytes ++ indexBytes).drop (data.length + bloomBytes.length - data.length) =
      indexBytes := List.drop_left' (by omega)
  have hlast : checkLastBlock generation blocks data.length = .ok () := by
    rw [checkLastBlock]
    cases h : blocks.getLast? with
    | none => rfl
    | some b =>
      have hb := hblocks b (List.mem_of_getLast? h)
      have hadd : checkedAdd b.offset b.storedLen = .ok (b.offset + b.storedLen) :=
        checkedAdd_eq_ok.mpr ⟨by omega, rfl⟩
      dsimp only
      rw [hadd, Except.ok_bind, if_neg (not_lt.mpr hb)]
      rfl
  rw [openHandle, if_neg (by omega), hv2]
  simp only [Except.ok_bind]
  rw [← hmore, hread]
  simp only [Except.ok_bind]
  rw [hfield₀, hfield₁, hfield₂, if_neg (by omega), checkedAdd, if_pos (by omega)]
  simp only [Except.ok_bind]
  rw [if_neg (by omega), hsections]
  simp only [Except.ok_bind]
  rw [htake, hdrop, if_neg fun h ↦ h.2 (hcrc h.1).symm, hbloom, hindex]
  simp only [Except.ok_bind, Except.ofOption]
  rw [hlast]
  rfl

/-! ## Runs between marks

The first format has no blocks, only marks at some of the entries. What lies between two marks is
read as a block. -/

theorem mem_sparseMarks {interval n offset : ℕ} {es : List SstEntry} {m : Bytes × ℕ}
    (h : m ∈ sparseMarks interval n offset es) :
    (∃ e ∈ es, e.1 = m.1) ∧ m.2 ≤ offset + (encodeEntries es).length := by
  induction es generalizing n offset with
  | nil => cases h
  | cons e es ih =>
    rw [encodeEntries_cons, List.length_append]
    have hrest : m ∈ sparseMarks interval (n + 1) (offset + (encodeEntry e).length) es →
        (∃ e' ∈ e :: es, e'.1 = m.1) ∧
          m.2 ≤ offset + ((encodeEntry e).length + (encodeEntries es).length) := by
      intro h
      obtain ⟨⟨e', he', hkey⟩, hle⟩ := ih h
      exact ⟨⟨e', List.mem_cons_of_mem _ he', hkey⟩, by omega⟩
    rw [sparseMarks] at h
    split at h
    · rcases List.mem_cons.mp h with rfl | h
      · exact ⟨⟨e, List.mem_cons_self, rfl⟩, Nat.le_add_right ..⟩
      · exact hrest h
    · exact hrest h

theorem length_sparseMarks_le (interval n offset : ℕ) (es : List SstEntry) :
    (sparseMarks interval n offset es).length ≤ es.length := by
  induction es generalizing n offset with
  | nil => exact le_rfl
  | cons e es ih =>
    have hrest := ih (n + 1) (offset + (encodeEntry e).length)
    rw [sparseMarks, List.length_cons]
    split
    · rw [List.length_cons]
      omega
    · omega

variable [Lz4]

/-- The runs between marks are blocks that hold the entries; what stands before the first mark
belongs to the block before. -/
theorem legacyBlocks_sparseMarks {interval : ℕ} {data : Bytes} (es : List SstEntry) (n : ℕ)
    (front : Bytes) (hdata : data = front ++ encodeEntries es) :
    ∃ pre chunks blocks, es = pre ++ chunks.flatten ∧ (n % interval = 0 → pre = []) ∧
      legacyBlocks (sparseMarks interval n front.length es) data.length = .ok blocks ∧
      List.Forall₂ (Stored data) blocks chunks ∧
      ((sparseMarks interval n front.length es).head?.map Prod.snd).getD data.length =
        front.length + (encodeEntries pre).length := by
  induction es generalizing n front with
  | nil =>
    refine ⟨[], [], [], rfl, fun _ ↦ rfl, rfl, .nil, ?_⟩
    simp [sparseMarks, hdata, encodeEntries]
  | cons e es ih =>
    have hdata' : data = (front ++ encodeEntry e) ++ encodeEntries es := by
      rw [hdata, encodeEntries_cons, List.append_assoc]
    obtain ⟨pre, chunks, blocks, hes, -, hlegacy, hstored, hnext⟩ :=
      ih (n + 1) (front ++ encodeEntry e) hdata'
    rw [List.length_append] at hlegacy hnext
    rw [sparseMarks]
    split
    next hmark =>
      -- a block begins here; it reaches to the next mark
      have hstop : front.length + (encodeEntry e).length + (encodeEntries pre).length =
          front.length + (encodeEntries (e :: pre)).length := by
        rw [encodeEntries_cons, List.length_append]
        omega
      have hslice : data.slice front.length (encodeEntries (e :: pre)).length =
          encodeEntries (e :: pre) :=
        Bytes.slice_of_eq front _ (encodeEntries chunks.flatten)
          (by rw [hdata, hes, ← List.cons_append, encodeEntries_append]) rfl rfl
      have hlen : front.length + (encodeEntries (e :: pre)).length ≤ data.length := by
        rw [hdata, hes, ← List.cons_append, encodeEntries_append, List.length_append,
          List.length_append]
        omega
      let run : Block := {
        firstKey := e.1, offset := front.length, storedLen := (encodeEntries (e :: pre)).length
        rawLen := (encodeEntries (e :: pre)).length, compressed := false, crc := none }
      refine ⟨[], (e :: pre) :: chunks, run :: blocks, by rw [hes]; rfl, fun _ ↦ rfl, ?_,
        .cons ?_ hstored, ?_⟩
      · rw [legacyBlocks, hnext, hstop]
        dsimp only
        rw [if_neg (by omega), hlegacy, Nat.add_sub_cancel_left]
        rfl
      · exact ⟨rfl, hlen, by simp [run], by simpa [run] using hslice⟩
      · simp [encodeEntries]
    next hmark =>
      refine ⟨e :: pre, chunks, blocks, by rw [hes]; rfl, fun h ↦ absurd h hmark, hlegacy, hstored, ?_⟩
      rw [hnext, encodeEntries_cons, List.length_append]
      omega

/-! ## The second format -/

theorem MetaHolds.valid {out : Bytes} {m : BlockMeta} {chunk : List SstEntry}
    (h : MetaHolds out m chunk) (hout : out.length < 2 ^ 64) : BlockMeta.codec.Valid m := by
  have hinside : m.offset + m.storedLen ≤ out.length := h.stored.inside
  have hfirst : m.firstKey.length < 2 ^ 32 := by
    obtain ⟨e, he, hkey⟩ := Option.map_eq_some_iff.mp h.stored.first
    have hshort := (h.short e (List.mem_of_head? he)).1
    rwa [hkey] at hshort
  refine ⟨Codec.valid_bytes (hfirst.trans (by norm_num)), ?_, ?_, ?_, trivial, ?_⟩
  · exact lt_of_lt_of_eq (show m.offset < 2 ^ 64 by omega) (by norm_num)
  · exact lt_of_lt_of_eq h.storedLen_lt (by norm_num)
  · exact lt_of_lt_of_eq h.rawLen_lt (by norm_num)
  · exact lt_of_lt_of_eq h.crc_lt (by norm_num)

variable [BloomSizing]

/-- The index of a finished write fits its format. -/
theorem SstWriter.Gathered.valid_index {n : ℕ} {w : SstWriter} {es : List SstEntry}
    (hw : w.Gathered n es) (hraw : w.block.raw = []) (hout : w.block.out.length < 2 ^ 64)
    (hindex : (IndexV2.codec.encode w.index).length < 2 ^ 64) : IndexV2.codec.Valid w.index := by
  obtain ⟨chunks, -, hchunks⟩ := hw.blocks hraw
  have hkey : ∀ o : Option SstEntry, (∀ e, o = some e → e ∈ es) →
      Codec.bytes.Valid ((o.map Prod.fst).getD []) := by
    intro o ho
    refine Codec.valid_bytes ?_
    cases o with
    | none => exact Nat.pos_of_neZero _
    | some e => exact (hw.short hraw e (ho e rfl)).1.trans (by norm_num)
  refine ⟨?_, ?_, ?_, ?_, ?_⟩
  · change Codec.bytes.Valid (w.minKey.getD [])
    rw [hw.minKey]
    exact hkey _ fun e he ↦ List.mem_of_head? he
  · change Codec.bytes.Valid w.maxKey
    rw [hw.maxKey]
    exact hkey _ fun e he ↦ List.mem_of_getLast? he
  · change w.entryCount < 256 ^ 8
    rw [hw.entryCount]
    exact lt_of_lt_of_eq hw.count_lt (by norm_num)
  · have hle : w.block.blocks.length ≤ (IndexV2.codec.encode w.index).length := by
      refine (length_le_encode_list BlockMeta.codec length_encode_blockMeta _).trans ?_
      change _ ≤ (_ ++ (_ ++ (_ ++ (Codec.list BlockMeta.codec).encode w.block.blocks))).length
      simp only [List.length_append]
      omega
    exact lt_of_lt_of_eq (lt_of_le_of_lt hle hindex) (by norm_num)
  · intro m hm
    obtain ⟨chunk, -, hchunk⟩ := hchunks.exists_right hm
    exact hchunk.valid hout

theorem SstWriter.Gathered.valid_bloom {n : ℕ} {w : SstWriter} {es : List SstEntry}
    (hw : w.Gathered n es) : BloomFilter.codec.Valid w.bloom := by
  rw [hw.bloom]
  exact ((BloomFilter.wellFormed_new n).insertAll _).valid

/-- **A finished write is opened again**, as the handle that the write itself gave out. -/
theorem openHandle_write {n : ℕ} {w : SstWriter} {es : List SstEntry} (hw : w.Gathered n es)
    (hraw : w.block.raw = []) {file before after : Bytes}
    (hfile : file = before ++ ((w.block.out ++ w.trailer) ++ after))
    (hlen : file.length < 2 ^ 64) (generation : ℕ) :
    openHandle file generation before.length (w.handle file before.length generation).blobLen =
      .ok (w.handle file before.length generation) := by
  have hoff : w.block.offset = w.block.out.length := hw.block.offset
  obtain ⟨chunks, -, hchunks⟩ := hw.blocks hraw
  set bloomBytes := BloomFilter.codec.encode w.bloom with hbloomBytes
  set indexBytes := IndexV2.codec.encode w.index with hindexBytes
  set rest := Bytes.be 4 (crc32 (bloomBytes ++ indexBytes)) ++ (Bytes.be 4 0 ++ magicV2) with hrest
  set footer := Bytes.be 8 w.block.out.length ++ (Bytes.be 8 (w.block.out.length +
    bloomBytes.length) ++ (Bytes.be 8 indexBytes.length ++ rest)) with hfooter
  have hfooterLen : footer.length = footerV2Len := by
    simp only [hfooter, hrest, List.length_append, Bytes.length_be, length_magicV2]
    rfl
  have htrailer : w.trailer = bloomBytes ++ (indexBytes ++ footer) := by
    rw [SstWriter.trailer, hoff]
    simp only [hfooter, hrest, List.append_assoc]
    rfl
  have hblob : (w.handle file before.length generation).blobLen =
      w.block.out.length + bloomBytes.length + indexBytes.length + footer.length := by
    rw [hfooterLen, ← hoff]
    rfl
  have hfile' : file = before ++ (w.block.out ++ (bloomBytes ++ (indexBytes ++ (footer ++ after)))) := by
    rw [hfile, htrailer]
    simp only [List.append_assoc]
  have hfl : file.length = before.length + (w.block.out.length + (bloomBytes.length +
      (indexBytes.length + (footer.length + after.length)))) := by
    simp only [hfile', List.length_append]
  have hv2 : isV2 file generation before.length
      (w.block.out.length + bloomBytes.length + indexBytes.length + footer.length) = .ok true := by
    have hread : readAt file generation before.length
        (w.block.out.length + bloomBytes.length + indexBytes.length + footer.length - 8) 8 =
          .ok magicV2 :=
      readAt_of_eq (before ++ (w.block.out ++ (bloomBytes ++ (indexBytes ++ (Bytes.be 8
        w.block.out.length ++ (Bytes.be 8 (w.block.out.length + bloomBytes.length) ++ (Bytes.be 8
        indexBytes.length ++ (Bytes.be 4 (crc32 (bloomBytes ++ indexBytes)) ++ Bytes.be 4 0))))))))
        magicV2 after (by simp only [hfile', hfooter, hrest, List.append_assoc])
        (by
          simp only [hfooterLen, footerV2Len, List.length_append, Bytes.length_be]
          omega) length_magicV2 hlen
    rw [isV2, if_pos (by omega), hread]
    simp [Except.map]
  have hcrc : Bytes.ofBe (footer.slice 24 4) = crc32 (bloomBytes ++ indexBytes) := by
    rw [Bytes.slice_of_eq (Bytes.be 8 w.block.out.length ++ (Bytes.be 8 (w.block.out.length +
      bloomBytes.length) ++ Bytes.be 8 indexBytes.length))
      (Bytes.be 4 (crc32 (bloomBytes ++ indexBytes))) (Bytes.be 4 0 ++ magicV2)
      (by simp only [hfooter, hrest, List.append_assoc])
      (by simp only [List.length_append, Bytes.length_be]) (Bytes.length_be ..),
      Bytes.ofBe_be_of_lt (lt_of_lt_of_eq (crc32_lt _) (by norm_num))]
  have hbloom : BloomFilter.codec.deserialize bloomBytes = some w.bloom := by
    have h := BloomFilter.codec.deserialize_encode hw.valid_bloom []
    rwa [List.append_nil] at h
  have hindex : readIndex generation true indexBytes w.block.out.length =
      .ok (w.block.blocks.map Block.ofMeta, some w.entryCount, w.index.minKey, w.maxKey) := by
    have h := IndexV2.codec.deserialize_encode
      (hw.valid_index hraw (by omega) (by rw [← hindexBytes]; omega)) []
    rw [List.append_nil, ← hindexBytes] at h
    rw [readIndex, if_pos rfl, h]
    rfl
  have hblocks : ∀ b ∈ w.block.blocks.map Block.ofMeta,
      b.offset + b.storedLen ≤ w.block.out.length := by
    intro b hb
    obtain ⟨m, hm, rfl⟩ := List.mem_map.mp hb
    obtain ⟨chunk, -, hchunk⟩ := hchunks.exists_right hm
    exact hchunk.stored.inside
  rw [hblob, openHandle_of_sections hfooter hfile' hlen (hfooterLen.trans (if_pos rfl).symm) hv2
    (fun _ ↦ hcrc) hbloom hindex hblocks, ← hblob]
  rfl

/-! ## The first format -/

/-- The index section of a blob of the first format. -/
def indexV1 (es : List SstEntry) (interval : ℕ) (minKey maxKey : Bytes) : Bytes :=
  legacyIndexCodec.encode (minKey, maxKey, sparseMarks interval 0 0 es)

omit [Lz4] [BloomSizing] in
/-- A blob that ends in the length of its index is one of the first format, unless the length reads as
the magic of the second. -/
theorem isV2_eq_false {file before after : Bytes} {indexLen : ℕ} (front : Bytes)
    (hfile : file = before ++ (front ++ (Bytes.be 8 indexLen ++ after)))
    (hlen : file.length < 2 ^ 64) (hindex : indexLen < 2 ^ 64)
    (hmagic : indexLen ≠ Bytes.ofBe magicV2) (generation : ℕ) :
    isV2 file generation before.length (front.length + 8) = .ok false := by
  rw [isV2]
  split
  next =>
    have hread : readAt file generation before.length (front.length + 8 - 8) 8 =
        .ok (Bytes.be 8 indexLen) :=
      readAt_of_eq (before ++ front) (Bytes.be 8 indexLen) after
        (by rw [hfile]; simp only [List.append_assoc])
        (by rw [List.length_append]; omega) (Bytes.length_be ..) hlen
    have hne : Bytes.be 8 indexLen ≠ magicV2 := by
      intro heq
      refine hmagic ?_
      rw [← heq, Bytes.ofBe_be_of_lt (lt_of_lt_of_eq hindex (by norm_num))]
    rw [hread]
    simp [Except.map, hne]
  next => rfl

omit [Lz4] [BloomSizing] in
theorem valid_indexV1 {es : List SstEntry} {first last : SstEntry} (hfirst : es.head? = some first)
    (hlast : es.getLast? = some last) (hshort : ∀ e ∈ es, ShortEntry e)
    (hlen : (encodeEntries es).length < 2 ^ 64) (interval : ℕ) :
    legacyIndexCodec.Valid (first.1, last.1, sparseMarks interval 0 0 es) := by
  have hkey : ∀ e ∈ es, Codec.bytes.Valid e.1 := fun e he ↦
    Codec.valid_bytes ((hshort e he).1.trans (by norm_num))
  refine ⟨hkey _ (List.mem_of_head? hfirst), hkey _ (List.mem_of_getLast? hlast), ?_, ?_⟩
  · have hmarks := length_sparseMarks_le interval 0 0 es
    have hentries := length_le_encodeEntries es
    exact lt_of_lt_of_eq (show (sparseMarks interval 0 0 es).length < 2 ^ 64 by omega) (by norm_num)
  · intro m hm
    obtain ⟨⟨e, he, hfst⟩, hle⟩ := mem_sparseMarks hm
    exact ⟨hfst ▸ hkey e he, lt_of_lt_of_eq (show m.2 < 2 ^ 64 by omega) (by norm_num)⟩

omit [Lz4] [BloomSizing] in
/-- The index of the first format reads back as the runs between its marks. -/
theorem readIndex_indexV1 {es : List SstEntry} {interval : ℕ} {minKey maxKey : Bytes}
    {blocks : List Block} {dataEnd : ℕ}
    (hvalid : legacyIndexCodec.Valid (minKey, maxKey, sparseMarks interval 0 0 es))
    (hblocks : legacyBlocks (sparseMarks interval 0 0 es) dataEnd = .ok blocks) (generation : ℕ) :
    readIndex generation false (indexV1 es interval minKey maxKey) dataEnd =
      .ok (blocks, none, minKey, maxKey) := by
  have h := legacyIndexCodec.deserialize_encode hvalid []
  rw [List.append_nil] at h
  rw [readIndex, if_neg Bool.false_ne_true, indexV1, h]
  simp only [Except.ofOption, Except.ok_bind]
  rw [hblocks]
  rfl

/-- **A blob of the first format is opened**, and the table holds the entries, if their lengths fit
and the length of the index does not read as the magic of the second format. -/
theorem openHandle_blobV1 {es : List SstEntry} {interval : ℕ} {first last : SstEntry}
    (hfirst : es.head? = some first) (hlast : es.getLast? = some last) (hsorted : Ascending es)
    (hshort : ∀ e ∈ es, ShortEntry e)
    (hmagic : (indexV1 es interval first.1 last.1).length ≠ Bytes.ofBe magicV2)
    {file before after : Bytes}
    (hfile : file = before ++ (blobV1 es interval first.1 last.1 ++ after))
    (hlen : file.length < 2 ^ 64) (generation : ℕ) :
    ∃ h, openHandle file generation before.length (blobV1 es interval first.1 last.1).length =
      .ok h ∧ h.Holds es := by
  obtain ⟨pre, chunks, blocks, hes, hpre, hlegacy, hstored, -⟩ :=
    @legacyBlocks_sparseMarks _ interval _ es 0 [] rfl
  obtain rfl := hpre (Nat.zero_mod _)
  rw [List.nil_append] at hes
  have hwf := BloomFilter.wellFormed_new es.length
  set data := encodeEntries es with hdata
  set bloom := (BloomFilter.new es.length).insertAll (es.map Prod.fst) with hbloomDef
  set bloomBytes := BloomFilter.codec.encode bloom with hbloomBytes
  set indexBytes := indexV1 es interval first.1 last.1 with hindexBytes
  set footer := Bytes.be 8 data.length ++ (Bytes.be 8 (data.length + bloomBytes.length) ++
    (Bytes.be 8 indexBytes.length ++ [])) with hfooter
  have hfooterLen : footer.length = footerV1Len := by
    simp only [hfooter, List.length_append, Bytes.length_be, List.length_nil]
    rfl
  have hblobEq : blobV1 es interval first.1 last.1 =
      data ++ (bloomBytes ++ (indexBytes ++ footer)) := by
    rw [blobV1]
    simp only [hfooter, List.append_assoc, List.append_nil]
    rfl
  have hblob : (blobV1 es interval first.1 last.1).length =
      data.length + bloomBytes.length + indexBytes.length + footer.length := by
    simp only [hblobEq, List.length_append]
    omega
  have hfile' : file = before ++ (data ++ (bloomBytes ++ (indexBytes ++ (footer ++ after)))) := by
    rw [hfile, hblobEq]
    simp only [List.append_assoc]
  have hfl : file.length = before.length + (data.length + (bloomBytes.length +
      (indexBytes.length + (footer.length + after.length)))) := by
    simp only [hfile', List.length_append]
  have hv1 : isV2 file generation before.length
      (data.length + bloomBytes.length + indexBytes.length + footer.length) = .ok false := by
    have hends : file = before ++ ((data ++ (bloomBytes ++ (indexBytes ++ (Bytes.be 8 data.length ++
        Bytes.be 8 (data.length + bloomBytes.length))))) ++ (Bytes.be 8 indexBytes.length ++ after)) := by
      simp only [hfile', hfooter, List.append_assoc, List.append_nil]
    rw [← isV2_eq_false _ hends hlen (by omega) hmagic generation]
    congr 1
    simp only [hfooterLen, footerV1Len, List.length_append, Bytes.length_be]
    omega
  have hbloom : BloomFilter.codec.deserialize bloomBytes = some bloom := by
    have h := BloomFilter.codec.deserialize_encode (hwf.insertAll (es.map Prod.fst)).valid []
    rwa [List.append_nil] at h
  have hindex : readIndex generation false indexBytes data.length =
      .ok (blocks, none, first.1, last.1) :=
    readIndex_indexV1 (valid_indexV1 hfirst hlast hshort (by rw [← hdata]; omega) interval) hlegacy
      generation
  have hblocks : ∀ b ∈ blocks, b.offset + b.storedLen ≤ data.length := by
    intro b hb
    obtain ⟨chunk, -, hs⟩ := hstored.exists_right hb
    exact hs.inside
  refine ⟨_, hblob ▸ openHandle_of_sections hfooter hfile' hlen
    (hfooterLen.trans (if_neg Bool.false_ne_true).symm) hv1 (fun h ↦ absurd h Bool.false_ne_true)
    hbloom hindex hblocks, ?_⟩
  refine ⟨hsorted, hshort, ⟨chunks, hes.symm, ?_⟩, ?_, ?_, ?_, ?_, ?_⟩
  · exact hstored.imp fun b chunk hs ↦ SstableHandle.blockHolds_of_stored hfile' rfl hlen hs
  · intro e he
    rw [hfirst] at he
    exact congrArg Prod.fst (Option.some.inj he)
  · intro e he
    rw [hlast] at he
    exact congrArg Prod.fst (Option.some.inj he)
  · intro e he
    exact BloomFilter.mightContain_insertAll hwf (List.mem_map_of_mem he)
  · exact (hwf.insertAll _).total
  · intro n hn
    cases hn

end Sst
