import Bkndb.Lsm.SstOpen

/-!
# What is written to an SSTable is read back

A table of the second format answers from the entries it was written with, through the handle of the
write as much as through one that opens the bytes again: a block that a length does not fit is
refused. The writer of the first format cuts the lengths of keys and values to four bytes and
refuses nothing, so a table of that format answers from its entries exactly if they are short.

## Main results

* `RoundTrips.short`: a table that answers from a list of entries holds short ones only, whoever
  wrote it, since its decoder can read nothing else.
* `round_trips_iff`: what the second format writes is read back whenever the write succeeds, and
  what the first one writes exactly when the entries are short.

The first format is not written any more, but files in it are still read.
-/

namespace Sst

open Layers

/-! ## What a table can yield -/

theorem readU32_lt {slice : Bytes} {pos n : ℕ} (h : readU32 slice pos = .ok n) : n < 2 ^ 32 := by
  rw [readU32] at h
  split at h
  next hle =>
    obtain rfl := Except.ok.inj h
    have hlt := Bytes.ofBe_lt (slice.slice pos 4)
    rw [Bytes.length_slice_of_le hle] at hlt
    exact lt_of_lt_of_eq hlt (by norm_num)
  next => cases h

theorem shortEntry_of_decodeEntry {slice key : Bytes} {value : LsmValue} {consumed : ℕ}
    (h : decodeEntry slice = .ok (key, value, consumed)) : ShortEntry (key, value) := by
  rw [decodeEntry, Except.bind_eq_ok] at h
  obtain ⟨keyLen, hkeyLen, h⟩ := h
  have hkey : (slice.slice 4 keyLen).length < 2 ^ 32 := by
    rw [Bytes.length_slice]
    exact lt_of_le_of_lt (Nat.min_le_left ..) (readU32_lt hkeyLen)
  by_cases hlt : slice.length < 4 + keyLen
  · rw [if_pos hlt] at h
    cases h
  · rw [if_neg hlt] at h
    dsimp only at h
    split at h
    next => cases h
    next =>
      cases h
      exact ⟨hkey, by norm_num [LsmValue.byteSize]⟩
    next =>
      obtain ⟨valueLen, hvalueLen, h⟩ := Except.bind_eq_ok.mp h
      split at h
      next => cases h
      next =>
        cases h
        refine ⟨hkey, ?_⟩
        rw [LsmValue.byteSize, Bytes.length_slice]
        exact lt_of_le_of_lt (Nat.min_le_left ..) (readU32_lt hvalueLen)
    next => cases h

end Sst

namespace SstableHandle

open Sst Layers

theorem shortEntry_of_decodeBlock {fuel : ℕ} {block : Bytes} {es : List SstEntry}
    (h : decodeBlock fuel block = .ok es) : ∀ e ∈ es, ShortEntry e := by
  induction fuel generalizing block es with
  | zero =>
    obtain rfl := Except.ok.inj h
    simp
  | succ fuel ih =>
    rw [decodeBlock] at h
    split at h
    next =>
      obtain rfl := Except.ok.inj h
      simp
    next =>
      obtain ⟨⟨key, value, consumed⟩, hdecode, h⟩ := Except.bind_eq_ok.mp h
      obtain ⟨rest, hrest, h⟩ := Except.bind_eq_ok.mp h
      cases h
      intro e he
      rcases List.mem_cons.mp he with rfl | he
      · exact shortEntry_of_decodeEntry hdecode
      · exact ih hrest e he

theorem mem_of_mem_drain {hi : Bound Bytes} {es : List SstEntry} {e : SstEntry}
    (h : .ok e ∈ (drain hi es).1) : e ∈ es := by
  induction es with
  | nil => cases h
  | cons e' es ih =>
    rw [drain] at h
    split at h
    next => cases h
    next =>
      rcases List.mem_cons.mp h with heq | h
      · exact List.mem_cons.mpr (.inl (Except.ok.inj heq))
      · exact List.mem_cons_of_mem _ (ih h)

variable [Lz4]

theorem shortEntry_of_mem_cursorFrom {h : SstableHandle} {lo hi : Bound Bytes} {i : ℕ}
    {bs : List Block} {e : SstEntry} (he : .ok e ∈ h.cursorFrom lo hi i bs) : ShortEntry e := by
  induction bs generalizing i with
  | nil => cases he
  | cons b bs ih =>
    rw [cursorFrom] at he
    split at he
    next => simp at he
    next es hes =>
      obtain ⟨block, -, hblock⟩ := Except.bind_eq_ok.mp hes
      have hdrain : .ok e ∈ (drain hi (es.filter fun e ↦ !belowStart e.1 lo)).1 → ShortEntry e :=
        fun hmem ↦ shortEntry_of_decodeBlock hblock e (List.mem_filter.mp (mem_of_mem_drain hmem)).1
      dsimp only at he
      split at he
      next => exact hdrain he
      next =>
        rcases List.mem_append.mp he with he | he
        · exact hdrain he
        · exact ih he

/-- **A table answers from short entries only.** -/
theorem RoundTrips.short {h : SstableHandle} {es : List SstEntry} (hh : h.RoundTrips es) :
    ∀ e ∈ es, ShortEntry e := by
  intro e he
  have hmem : .ok e ∈ h.cursor .unbounded .unbounded := by
    rw [hh.cursor]
    exact List.mem_map_of_mem (List.mem_filter.mpr ⟨he, rfl⟩)
  rw [SstableHandle.cursor] at hmem
  split at hmem
  next => cases hmem
  next => exact shortEntry_of_mem_cursorFrom hmem

end SstableHandle

namespace Sst

open Layers

/-! ## Both formats -/

section

variable [BloomSizing]

/-- A write of the first format that succeeds has put the blob at the end of the file. -/
theorem writeV1_eq_ok {i interval base len : ℕ} {es : List SstEntry} {os os' : Os}
    (h : writeV1 i es interval os = (.ok (base, len), os')) :
    ∃ first last, es.head? = some first ∧ es.getLast? = some last ∧ interval ≠ 0 ∧
      base = (os.contents i).length ∧ len = (blobV1 es interval first.1 last.1).length ∧
      os'.contents i = os.contents i ++ blobV1 es interval first.1 last.1 ∧
      (os'.contents i).length ≤ Os.maxLen := by
  rw [writeV1, Effect.bind_eq_ok] at h
  obtain ⟨_, os₁, hlen, h⟩ := h
  obtain ⟨-, rfl, rfl⟩ := Os.fileLen_eq_ok.mp hlen
  cases hfirst : es.head? with
  | none =>
    rw [hfirst] at h
    cases h
  | some first =>
    cases hlast : es.getLast? with
    | none =>
      rw [hfirst, hlast] at h
      cases h
    | some last =>
      rw [hfirst, hlast] at h
      dsimp only at h
      by_cases hinterval : interval = 0
      · rw [if_pos hinterval] at h
        cases h
      · rw [if_neg hinterval] at h
        obtain ⟨_, os₂, hseek, h⟩ := Effect.bind_eq_ok.mp h
        obtain ⟨-, rfl⟩ := Os.call_eq_ok.mp hseek
        obtain ⟨_, os₃, hwrite, h⟩ := Effect.bind_eq_ok.mp h
        obtain ⟨-, hle, rfl⟩ := Os.writeWith_eq_ok.mp hwrite
        cases h
        have happend : (os.contents i).writeAt (os.contents i).length
            (blobV1 es interval first.1 last.1) =
              os.contents i ++ blobV1 es interval first.1 last.1 := Bytes.writeAt_length ..
        refine ⟨first, last, rfl, rfl, hinterval, rfl, rfl, ?_, ?_⟩
        · rw [Os.contents_setContents_self]
          exact happend
        · rw [Os.contents_setContents_self]
          exact (congrArg List.length happend).trans_le ((List.length_append ..).trans_le hle)

/-- A write of the first format succeeds if nothing fails and there is room for the blob. -/
theorem writeV1_ok {i interval : ℕ} {es : List SstEntry} {os : Os} {first last : SstEntry}
    (hfirst : es.head? = some first) (hlast : es.getLast? = some last) (hinterval : interval ≠ 0)
    (hplan : os.plan = [])
    (hle : (os.contents i).length + (blobV1 es interval first.1 last.1).length ≤ Os.maxLen) :
    ∃ os', writeV1 i es interval os =
      (.ok ((os.contents i).length, (blobV1 es interval first.1 last.1).length), os') := by
  have hlen : Os.fileLen unwrapErr i os = (.ok (os.contents i).length, os.pop) :=
    Os.fileLen_eq_ok.mpr ⟨by simp [Os.answer, hplan], rfl, rfl⟩
  have hseek : Os.call unwrapErr os.pop = (.ok (), os.pop.pop) :=
    Os.call_eq_ok.mpr ⟨by simp [Os.answer, Os.pop, hplan], rfl⟩
  obtain ⟨os₃, hwrite⟩ : ∃ os₃, Os.writeAll unwrapErr i (os.contents i).length
      (blobV1 es interval first.1 last.1) os.pop.pop = (.ok (), os₃) :=
    ⟨_, Os.writeWith_eq_ok.mpr ⟨by simp [Os.answer, Os.pop, hplan], hle, rfl⟩⟩
  refine ⟨os₃, ?_⟩
  rw [writeV1, Effect.bind_apply_of_ok hlen, hfirst, hlast]
  dsimp only
  rw [if_neg hinterval, Effect.bind_apply_of_ok hseek, Effect.bind_apply_of_ok hwrite]
  rfl

end

variable [Lz4] [BloomSizing]


/-- The length of the index of a blob of the first format reads as the magic of the second. -/
def IndexReadsAsMagic (es : List SstEntry) (interval : ℕ) : Prop :=
  ∃ first last, es.head? = some first ∧ es.getLast? = some last ∧
    (indexV1 es interval first.1 last.1).length = Bytes.ofBe magicV2

/-- **What is written to an SSTable is read back.** In the second format it always is. In the first
it is if every key and value is short, and only then. -/
theorem round_trips_iff {es : List SstEntry} (hsorted : Ascending es) (i generation : ℕ) (os : Os) :
    (∀ n opts h os', write i generation (es.map .ok) n opts os = (.ok h, os') →
      h.RoundTrips es ∧ ∃ h', openHandle (os'.contents i) generation h.baseOffset h.blobLen = .ok h' ∧
        h'.RoundTrips es) ∧
    ∀ interval base len os', writeV1 i es interval os = (.ok (base, len), os') →
      ¬IndexReadsAsMagic es interval →
      ((∃ h, openHandle (os'.contents i) generation base len = .ok h ∧ h.RoundTrips es) ↔
        ∀ e ∈ es, ShortEntry e) := by
  constructor
  · intro n opts h os' hwrite
    obtain ⟨es', w, hes, -, hw, hraw, hcontents, hle, rfl⟩ := write_eq_ok hwrite
    obtain rfl : es = es' := List.map_injective_iff.mpr (fun _ _ h ↦ Except.ok.inj h) hes
    have hlen : (os'.contents i).length < 2 ^ 64 := lt_of_le_of_lt hle (by decide)
    have hfile : os'.contents i = os.contents i ++ ((w.block.out ++ w.trailer) ++ []) := by
      rw [List.append_nil, hcontents]
    have hholds : (w.handle (os'.contents i) (os.contents i).length generation).Holds es :=
      hw.holds hraw hsorted hcontents rfl hlen rfl rfl rfl rfl rfl
    exact ⟨hholds.roundTrips, _, openHandle_write hw hraw hfile hlen generation, hholds.roundTrips⟩
  · intro interval base len os' hwrite hmagic
    obtain ⟨first, last, hfirst, hlast, -, rfl, rfl, hcontents, hle⟩ := writeV1_eq_ok hwrite
    have hfile : os'.contents i =
        os.contents i ++ (blobV1 es interval first.1 last.1 ++ []) := by
      rw [List.append_nil, hcontents]
    constructor
    · rintro ⟨h, -, hh⟩
      exact hh.short
    · intro hshort
      obtain ⟨h, hopen, hholds⟩ := openHandle_blobV1 hfirst hlast hsorted hshort
        (fun heq ↦ hmagic ⟨first, last, hfirst, hlast, heq⟩) hfile
        (lt_of_le_of_lt hle (by decide)) generation
      exact ⟨h, hopen, hholds.roundTrips⟩

end Sst

/-! ## Two tables -/

namespace Sst.Sample

open Layers

local instance : Lz4 := Lz4.stored

/-- The size of a filter for one or two items. -/
local instance : BloomSizing where
  bits n := if n = 1 then 10 else 20
  hashes n _ := if n = 1 then 44 else 22

def twoEntries : List SstEntry := [([1], .value [7]), ([2], .tombstone)]

/-- A key that four bytes cannot count. -/
def longKey : Bytes := List.replicate (2 ^ 32) 0

/-- Two entries are read back from either format. -/
theorem round_trips_two_entries :
    (∃ h os', write 0 1 (twoEntries.map .ok) 2 ⟨16, true⟩ {} = (.ok h, os') ∧
      h.RoundTrips twoEntries) ∧
    ∃ base len os', writeV1 0 twoEntries 2 {} = (.ok (base, len), os') ∧
      ∃ h, openHandle (os'.contents 0) 1 base len = .ok h ∧ h.RoundTrips twoEntries := by
  have hsorted : Ascending twoEntries := by decide
  obtain ⟨hv2, hv1⟩ := round_trips_iff hsorted 0 1 {}
  constructor
  · have hok : (write 0 1 (twoEntries.map .ok) 2 ⟨16, true⟩ {}).1.isOk = true := by decide +kernel
    rcases hw : write 0 1 (twoEntries.map .ok) 2 ⟨16, true⟩ {} with ⟨e | h, os'⟩
    · rw [hw] at hok
      cases hok
    · exact ⟨h, os', rfl, (hv2 _ _ _ _ hw).1⟩
  · have hok : (writeV1 0 twoEntries 2 {}).1.isOk = true := by decide +kernel
    rcases hw : writeV1 0 twoEntries 2 {} with ⟨e | ⟨base, len⟩, os'⟩
    · rw [hw] at hok
      cases hok
    · refine ⟨base, len, os', rfl, (hv1 _ _ _ _ hw ?_).mpr (by decide)⟩
      rintro ⟨first, last, hfirst, hlast, hlen⟩
      cases hfirst
      cases hlast
      revert hlen
      decide +kernel

theorem length_blobV1_le (k : Bytes) :
    (blobV1 [(k, .tombstone)] 1 k k).length ≤ 4 * k.length + 2 ^ 32 := by
  have hbits := ((BloomFilter.wellFormed_new 1).insertAll [k]).bits
  have hm := ((BloomFilter.wellFormed_new 1).insertAll [k]).m_lt
  have hbloom : (BloomFilter.codec.encode ((BloomFilter.new 1).insertAll [k])).length =
      4 + (4 + (8 + ((BloomFilter.new 1).insertAll [k]).bits.length)) := by
    change (Codec.u32.encode _ ++ (Codec.u32.encode _ ++ Codec.bytes.encode _)).length = _
    simp only [List.length_append, Codec.length_encode_u32, Codec.length_encode_bytes]
  have hindex : (indexV1 [(k, .tombstone)] 1 k k).length =
      8 + k.length + (8 + k.length + (8 + (8 + k.length + 8))) := by
    change (Codec.bytes.encode k ++ (Codec.bytes.encode k ++ (Codec.u64.encode 1 ++
      ((Codec.bytes.encode k ++ Codec.u64.encode 0) ++ [])))).length = _
    simp only [List.length_append, Codec.length_encode_u64, Codec.length_encode_bytes,
      List.length_nil, Nat.add_zero]
  have hdata : (encodeEntries [(k, .tombstone)]).length = 4 + (k.length + 1) := by
    simp only [encodeEntries, encodeEntry, encodeValue, List.flatMap_cons, List.flatMap_nil,
      List.length_append, Bytes.length_be, List.length_cons, List.length_nil, Nat.zero_add,
      Nat.add_zero]
  have hblob : (blobV1 [(k, .tombstone)] 1 k k).length =
      (encodeEntries [(k, .tombstone)]).length +
        (BloomFilter.codec.encode ((BloomFilter.new 1).insertAll [k])).length +
        (indexV1 [(k, .tombstone)] 1 k k).length + 24 := by
    rw [blobV1]
    simp only [List.length_append, Bytes.length_be]
    rfl
  omega

theorem not_round_trips_of_length {k : Bytes} (hk : k.length = 2 ^ 32) :
    ∃ base len os', writeV1 0 [(k, .tombstone)] 1 {} = (.ok (base, len), os') ∧
      ¬∃ h, openHandle (os'.contents 0) 1 base len = .ok h ∧ h.RoundTrips [(k, .tombstone)] := by
  have hle : (Os.contents {} 0).length + (blobV1 [(k, .tombstone)] 1 k k).length ≤ Os.maxLen := by
    have hblob := length_blobV1_le k
    have hmax : Os.maxLen = 2 ^ 63 - 1 := rfl
    have hnil : (Os.contents {} 0).length = 0 := rfl
    omega
  obtain ⟨os', hwrite⟩ := @writeV1_ok _ 0 1 [(k, .tombstone)] {} (k, .tombstone) (k, .tombstone)
    rfl rfl one_ne_zero rfl hle
  refine ⟨_, _, os', hwrite, ?_⟩
  rintro ⟨h, -, hh⟩
  have hlt : k.length < 2 ^ 32 := (hh.short (k, .tombstone) List.mem_cons_self).1
  omega

/-- **A key that four bytes cannot count is written and not read back.** -/
theorem not_round_trips_long_key : Ascending [(longKey, LsmValue.tombstone)] ∧
    ∃ base len os', writeV1 0 [(longKey, .tombstone)] 1 {} = (.ok (base, len), os') ∧
      ¬∃ h, openHandle (os'.contents 0) 1 base len = .ok h ∧ h.RoundTrips [(longKey, .tombstone)] :=
  ⟨List.pairwise_singleton .., not_round_trips_of_length List.length_replicate⟩

end Sst.Sample
