import Bkndb.Basic.Layers
import Bkndb.Lsm.Sstable

/-!
# What an SSTable holds

An open SSTable holds a list of entries if its blocks, read and decoded one after the other, are
those entries, and its smallest and largest key, its filter and its count agree with them. Whatever
made the handle, lookups, cursors and verification then answer from the list alone.

## The layer between

`Holds` says what a handle means: a list of entries, ascending, cut into the blocks of the index.
Nothing about it depends on who wrote the table or in which format, so the readers are proved
correct against it once (`Holds.get`, `Holds.cursor`, `Holds.verify`), and each writer only has to
establish it.
-/

namespace Sst

/-- The lengths of an entry fit their fields. -/
def ShortEntry (e : SstEntry) : Prop := e.1.length < 2 ^ 32 ∧ e.2.byteSize < 2 ^ 32

instance (e : SstEntry) : Decidable (ShortEntry e) := inferInstanceAs (Decidable (_ ∧ _))

/-! ## Entries -/

theorem length_encodeEntry_pos (e : SstEntry) : 0 < (encodeEntry e).length := by
  rw [encodeEntry, List.length_append, Bytes.length_be]
  omega

theorem readU32_of_eq {slice : Bytes} (a c : Bytes) {pos n : ℕ}
    (h : slice = a ++ (Bytes.be 4 n ++ c)) (ha : a.length = pos) (hn : n < 2 ^ 32) :
    readU32 slice pos = .ok n := by
  rw [readU32, if_pos]
  · rw [Bytes.slice_of_eq a _ c h ha (Bytes.length_be ..), Bytes.ofBe_be_of_lt (by norm_num; omega)]
  · rw [h, List.length_append, List.length_append, Bytes.length_be]
    omega

/-- An entry is read back, whatever follows it. -/
theorem decodeEntry_encodeEntry {e : SstEntry} (h : ShortEntry e) (rest : Bytes) :
    decodeEntry (encodeEntry e ++ rest) = .ok (e.1, e.2, (encodeEntry e).length) := by
  obtain ⟨key, value⟩ := e
  have hread : readU32 (encodeEntry (key, value) ++ rest) 0 = .ok key.length :=
    readU32_of_eq [] _ (by rw [encodeEntry]; simp only [List.append_assoc]; rfl) rfl h.1
  have hkey : (encodeEntry (key, value) ++ rest).slice 4 key.length = key :=
    Bytes.slice_of_eq (Bytes.be 4 key.length) key _
      (by rw [encodeEntry]; simp only [List.append_assoc]; rfl) (Bytes.length_be ..) rfl
  have hlen : (encodeEntry (key, value) ++ rest).length =
      4 + key.length + (encodeValue value).length + rest.length := by
    simp only [encodeEntry, List.length_append, Bytes.length_be]
    omega
  have htag : (encodeEntry (key, value) ++ rest)[4 + key.length]? = (encodeValue value ++ rest)[0]? := by
    have hpre : (Bytes.be 4 key.length ++ key).length = 4 + key.length := by
      rw [List.length_append, Bytes.length_be]
    rw [show encodeEntry (key, value) ++ rest =
      (Bytes.be 4 key.length ++ key) ++ (encodeValue value ++ rest) by
        rw [encodeEntry]; simp only [List.append_assoc], List.getElem?_append_right (by omega), hpre,
      Nat.sub_self]
  rw [decodeEntry, hread, Except.ok_bind, if_neg (by omega), htag, hkey]
  cases value with
  | tombstone =>
    simp [encodeValue, encodeEntry]
    rfl
  | value v =>
    have hvalue : readU32 (encodeEntry (key, .value v) ++ rest) (4 + key.length + 1) =
        .ok v.length :=
      readU32_of_eq (Bytes.be 4 key.length ++ (key ++ [1])) (v ++ rest)
        (by rw [encodeEntry, encodeValue]; simp only [List.append_assoc, List.cons_append]; rfl)
        (by simp; omega) h.2
    have hbytes : (encodeEntry (key, .value v) ++ rest).slice (4 + key.length + 1 + 4) v.length = v :=
      Bytes.slice_of_eq (Bytes.be 4 key.length ++ (key ++ (1 :: Bytes.be 4 v.length))) v rest
        (by rw [encodeEntry, encodeValue]; simp only [List.append_assoc, List.cons_append])
        (by simp; omega) rfl
    have hcons : (encodeValue (.value v) ++ rest)[0]? = some 1 := rfl
    have hlength : (encodeEntry (key, .value v)).length = 4 + key.length + 1 + 4 + v.length := by
      simp only [encodeEntry, encodeValue, List.length_append, List.length_cons, Bytes.length_be]
      omega
    rw [hcons]
    dsimp only
    rw [hvalue, Except.ok_bind, if_neg, hbytes, hlength]
    · rfl
    · rw [List.length_append, hlength]
      omega

theorem encodeEntries_cons (e : SstEntry) (es : List SstEntry) :
    encodeEntries (e :: es) = encodeEntry e ++ encodeEntries es := List.flatMap_cons

theorem encodeEntries_append (es es' : List SstEntry) :
    encodeEntries (es ++ es') = encodeEntries es ++ encodeEntries es' := List.flatMap_append

theorem encodeEntries_eq_nil {es : List SstEntry} : encodeEntries es = [] ↔ es = [] := by
  cases es with
  | nil => simp [encodeEntries]
  | cons e es =>
    rw [encodeEntries_cons]
    have := length_encodeEntry_pos e
    simp only [List.append_eq_nil_iff, reduceCtorEq, iff_false, not_and]
    intro h
    rw [h] at this
    simp at this

theorem length_le_encodeEntries (es : List SstEntry) : es.length ≤ (encodeEntries es).length := by
  induction es with
  | nil => exact le_rfl
  | cons e es ih =>
    have := length_encodeEntry_pos e
    rw [encodeEntries_cons, List.length_append, List.length_cons]
    omega

/-- An entry of a block that is not too large is short. -/
theorem shortEntry_of_length_lt {es : List SstEntry} (h : (encodeEntries es).length < 2 ^ 32) :
    ∀ e ∈ es, ShortEntry e := by
  intro e he
  have hle : (encodeEntry e).length ≤ (encodeEntries es).length := by
    rw [encodeEntries, List.length_flatMap]
    exact List.le_sum_of_mem (List.mem_map_of_mem he)
  have hlen : e.1.length + e.2.byteSize ≤ (encodeEntry e).length := by
    rw [encodeEntry, List.length_append, List.length_append, Bytes.length_be]
    cases e.2 with
    | tombstone => simp [LsmValue.byteSize]; omega
    | value v => simp [LsmValue.byteSize, encodeValue]; omega
  constructor <;> omega

/-! ## Bounds -/

/-- Which keys lie within two bounds. -/
def within (lo hi : Bound Bytes) (e : SstEntry) : Bool :=
  !SstableHandle.belowStart e.1 lo && !SstableHandle.pastEnd e.1 hi

end Sst

namespace SstableHandle

open Sst Layers

theorem belowStart_iff {key : Bytes} {b : Bound Bytes} : belowStart key b = true ↔ ¬b.Above key := by
  cases b <;> simp [belowStart]

theorem pastEnd_iff {key : Bytes} {b : Bound Bytes} : pastEnd key b = true ↔ ¬b.Below key := by
  cases b <;> simp [pastEnd]

theorem within_iff {lo hi : Bound Bytes} {e : SstEntry} :
    within lo hi e = true ↔ lo.Above e.1 ∧ hi.Below e.1 := by
  rw [within, Bool.and_eq_true, Bool.not_eq_true', Bool.not_eq_true', ← Bool.not_eq_true,
    ← Bool.not_eq_true, belowStart_iff, pastEnd_iff, not_not, not_not]

theorem pastEnd_of_lt {k k' : Bytes} {b : Bound Bytes} (hlt : k < k')
    (h : pastEnd k b = true) : pastEnd k' b = true := by
  cases b with
  | included s => simpa [pastEnd] using lt_trans (by simpa [pastEnd] using h) hlt
  | excluded s => simpa [pastEnd] using le_trans (by simpa [pastEnd] using h) hlt.le
  | unbounded => cases h

theorem filter_eq_nil_of_pastEnd {hi : Bound Bytes} {es es' : List SstEntry}
    (hcross : ∀ e ∈ es, ∀ e' ∈ es', e.1 < e'.1) (h : es.any (fun e ↦ pastEnd e.1 hi) = true)
    (lo : Bound Bytes) : es'.filter (within lo hi) = [] := by
  obtain ⟨e, he, hpast⟩ := List.any_eq_true.mp h
  refine List.filter_eq_nil_iff.mpr fun e' he' ↦ ?_
  simp [within, pastEnd_of_lt (hcross e he e' he') hpast]

/-- An ascending block hands out what is not past the end. -/
theorem drain_eq {hi : Bound Bytes} {es : List SstEntry} (hsorted : Ascending es) :
    drain hi es = ((es.filter fun e ↦ !pastEnd e.1 hi).map .ok, es.any fun e ↦ pastEnd e.1 hi) := by
  induction es with
  | nil => rfl
  | cons e es ih =>
    obtain ⟨hhead, hsorted⟩ := List.pairwise_cons.mp hsorted
    rw [drain, ih hsorted]
    by_cases hpast : pastEnd e.1 hi = true
    · have hrest : (es.filter fun e ↦ !pastEnd e.1 hi) = [] :=
        List.filter_eq_nil_iff.mpr fun e' he' ↦ by simp [pastEnd_of_lt (hhead e' he') hpast]
      simp [hpast, hrest]
    · simp [hpast]

theorem filter_within (lo hi : Bound Bytes) (es : List SstEntry) :
    es.filter (within lo hi) =
      (es.filter fun e ↦ !belowStart e.1 lo).filter fun e ↦ !pastEnd e.1 hi := by
  rw [List.filter_filter]
  refine List.filter_congr fun e _ ↦ ?_
  rw [within, Bool.and_comm]

/-! ## Blocks -/

theorem decodeBlock_encodeEntries {es : List SstEntry} (h : ∀ e ∈ es, ShortEntry e) {fuel : ℕ}
    (hfuel : es.length ≤ fuel) : decodeBlock fuel (encodeEntries es) = .ok es := by
  induction es generalizing fuel with
  | nil => cases fuel <;> rfl
  | cons e es ih =>
    cases fuel with
    | zero => simp at hfuel
    | succ fuel =>
      have hne : encodeEntries (e :: es) ≠ [] := by simp [encodeEntries_eq_nil]
      rw [decodeBlock, if_neg hne, encodeEntries_cons,
        decodeEntry_encodeEntry (h e List.mem_cons_self), Except.ok_bind]
      dsimp only
      rw [List.drop_left, ih (fun e' he' ↦ h e' (List.mem_cons_of_mem _ he')) (by simpa using hfuel)]
      rfl

theorem searchBlock_encodeEntries {es : List SstEntry} (h : ∀ e ∈ es, ShortEntry e)
    (hsorted : Ascending es) (key : Bytes) {fuel : ℕ} (hfuel : es.length ≤ fuel) :
    searchBlock key fuel (encodeEntries es) = .ok (find es key) := by
  induction es generalizing fuel with
  | nil => cases fuel <;> rfl
  | cons e es ih =>
    cases fuel with
    | zero => simp at hfuel
    | succ fuel =>
      have hne : encodeEntries (e :: es) ≠ [] := by simp [encodeEntries_eq_nil]
      obtain ⟨hhead, hsorted⟩ := List.pairwise_cons.mp hsorted
      rw [searchBlock, if_neg hne, encodeEntries_cons,
        decodeEntry_encodeEntry (h e List.mem_cons_self), Except.ok_bind, find_cons]
      dsimp only
      by_cases heq : e.1 = key
      · rw [if_pos heq, if_pos heq]
        rfl
      · rw [if_neg heq, if_neg heq]
        by_cases hlt : key < e.1
        · -- the keys ascend, so the key does not come any more
          rw [if_pos hlt, find_eq_none fun e' he' ↦ (hlt.trans (hhead e' he')).ne']
          rfl
        · rw [if_neg hlt, List.drop_left]
          exact ih (fun e' he' ↦ h e' (List.mem_cons_of_mem _ he')) hsorted (by simpa using hfuel)

/-- The number of blocks that begin at or below a key. -/
def reach (bs : List Block) (key : Bytes) : ℕ := (bs.takeWhile fun b ↦ b.firstKey ≤ key).length

theorem reach_cons_of_le {b : Block} (bs : List Block) {key : Bytes} (h : b.firstKey ≤ key) :
    reach (b :: bs) key = reach bs key + 1 := by
  rw [reach, List.takeWhile_cons_of_pos (by simpa using h), List.length_cons]
  rfl

theorem reach_cons_of_lt {b : Block} (bs : List Block) {key : Bytes} (h : key < b.firstKey) :
    reach (b :: bs) key = 0 := by
  rw [reach, List.takeWhile_cons_of_neg (by simpa using h)]
  rfl

theorem blockFor_eq (h : SstableHandle) (key : Bytes) :
    h.blockFor key = if reach h.blocks key = 0 then none else some (reach h.blocks key - 1) := by
  unfold blockFor reach
  generalize (h.blocks.takeWhile fun b ↦ b.firstKey ≤ key).length = n
  cases n <;> rfl

variable [Lz4]

/-- A block begins with its first key and decodes to its entries. -/
structure BlockHolds (h : SstableHandle) (b : Block) (chunk : List SstEntry) : Prop where
  first : chunk.head?.map Prod.fst = some b.firstKey
  bytes : ∀ i, h.blockBytes i b = .ok (encodeEntries chunk)

/-- **What an SSTable holds.** -/
structure Holds (h : SstableHandle) (es : List SstEntry) : Prop where
  ascending : Ascending es
  short : ∀ e ∈ es, ShortEntry e
  blocks : ∃ chunks, chunks.flatten = es ∧ List.Forall₂ h.BlockHolds h.blocks chunks
  minKey : ∀ e, es.head? = some e → h.minKey = e.1
  maxKey : ∀ e, es.getLast? = some e → h.maxKey = e.1
  bloom : ∀ e ∈ es, h.bloom.mightContain e.1 = .ok true
  total : ∀ key, ∃ b, h.bloom.mightContain key = .ok b
  entryCount : ∀ n, h.entryCount = some n → n = es.length

theorem BlockHolds.decode {h : SstableHandle} {b : Block} {chunk : List SstEntry}
    (hb : h.BlockHolds b chunk) (hshort : ∀ e ∈ chunk, ShortEntry e) (i : ℕ) :
    (h.blockBytes i b >>= fun block ↦ decodeBlock block.length block) = .ok chunk := by
  rw [hb.bytes, Except.ok_bind]
  exact decodeBlock_encodeEntries hshort (length_le_encodeEntries chunk)

theorem BlockHolds.firstKey_le {h : SstableHandle} {b : Block} {chunk : List SstEntry}
    (hb : h.BlockHolds b chunk) (hsorted : Ascending chunk) : ∀ e ∈ chunk, b.firstKey ≤ e.1 := by
  obtain ⟨e, hhead, hfirst⟩ := Option.map_eq_some_iff.mp hb.first
  cases chunk with
  | nil => cases hhead
  | cons e' rest =>
    obtain rfl := Option.some.inj hhead
    intro x hx
    rcases List.mem_cons.mp hx with rfl | hx
    · exact hfirst.ge
    · exact hfirst ▸ ((List.pairwise_cons.mp hsorted).1 x hx).le

theorem BlockHolds.mem {h : SstableHandle} {b : Block} {chunk : List SstEntry}
    (hb : h.BlockHolds b chunk) : ∃ e ∈ chunk, e.1 = b.firstKey := by
  obtain ⟨e, hhead, hfirst⟩ := Option.map_eq_some_iff.mp hb.first
  exact ⟨e, List.mem_of_head? hhead, hfirst⟩

/-! ## Point lookup

Blocks are in order, so only the last one that begins at or below the key can hold it. The filter
and the two outermost keys rule a table out earlier. -/

theorem lookup_of_reach_eq_zero {h : SstableHandle} {bs : List Block} {chunks : List (List SstEntry)}
    (hbs : List.Forall₂ h.BlockHolds bs chunks) (hsorted : Ascending chunks.flatten) {key : Bytes}
    (hreach : reach bs key = 0) : ∀ e ∈ chunks.flatten, key < e.1 := by
  cases hbs with
  | nil => simp
  | @cons b chunk bs chunks hb hbs =>
    have hlt : key < b.firstKey := by
      by_contra hle
      rw [reach_cons_of_le bs (not_lt.mp hle)] at hreach
      omega
    rw [List.flatten_cons] at hsorted ⊢
    obtain ⟨hchunk, -, hcross⟩ := List.pairwise_append.mp hsorted
    obtain ⟨e₀, he₀, hfirst⟩ := hb.mem
    intro e he
    rcases List.mem_append.mp he with he | he
    · exact lt_of_lt_of_le hlt (hb.firstKey_le hchunk e he)
    · exact (hlt.trans_eq hfirst.symm).trans (hcross e₀ he₀ e he)

/-- The last block that begins at or below a key: what comes before it is below the key, what comes
after it is above. -/
theorem split_of_reach {h : SstableHandle} {bs : List Block} {chunks : List (List SstEntry)}
    (hbs : List.Forall₂ h.BlockHolds bs chunks) (hsorted : Ascending chunks.flatten) {key : Bytes}
    {n : ℕ} (hreach : reach bs key = n + 1) :
    ∃ b chunk before after, bs[n]? = some b ∧ h.BlockHolds b chunk ∧ b.firstKey ≤ key ∧
      chunks.flatten = before ++ (chunk ++ after) ∧ (chunks.take n).flatten = before ∧
      (∀ e ∈ before, e.1 < key) ∧ ∀ e ∈ after, key < e.1 := by
  induction hbs generalizing n with
  | nil => simp [reach] at hreach
  | @cons b chunk bs chunks hb hbs ih =>
    have hle : b.firstKey ≤ key := by
      by_contra hlt
      rw [reach_cons_of_lt bs (not_le.mp hlt)] at hreach
      omega
    rw [reach_cons_of_le bs hle] at hreach
    rw [List.flatten_cons] at hsorted
    obtain ⟨-, hrest, hcross⟩ := List.pairwise_append.mp hsorted
    cases n with
    | zero =>
      refine ⟨b, chunk, [], chunks.flatten, rfl, hb, hle, rfl, rfl, by simp, ?_⟩
      exact lookup_of_reach_eq_zero hbs hrest (Nat.succ_injective hreach)
    | succ n =>
      obtain ⟨b', chunk', before, after, hget, hb', hle', hflat, htake, hbefore, hafter⟩ :=
        ih hrest (Nat.succ_injective hreach)
      refine ⟨b', chunk', chunk ++ before, after, hget, hb', hle', ?_, ?_, ?_, hafter⟩
      · rw [List.flatten_cons, hflat, List.append_assoc]
      · rw [List.take_succ_cons, List.flatten_cons, htake]
      · intro e he
        rcases List.mem_append.mp he with he | he
        · -- the next block already begins at or below the key
          obtain ⟨e', he', hfirst⟩ := hb'.mem
          have hmem : e' ∈ chunks.flatten := by
            rw [hflat]
            exact List.mem_append_right _ (List.mem_append_left _ he')
          exact lt_of_lt_of_le (hcross e he e' hmem) (hfirst.trans_le hle')
        · exact hbefore e he

theorem Holds.minKey_le {h : SstableHandle} {es : List SstEntry} (hh : h.Holds es) :
    ∀ e ∈ es, h.minKey ≤ e.1 := by
  intro e he
  have hasc := hh.ascending
  have hmin := hh.minKey
  cases es with
  | nil => cases he
  | cons e₀ rest =>
    rw [hmin e₀ rfl]
    rcases List.mem_cons.mp he with rfl | he
    · exact le_rfl
    · exact ((List.pairwise_cons.mp hasc).1 e he).le

theorem Holds.le_maxKey {h : SstableHandle} {es : List SstEntry} (hh : h.Holds es) :
    ∀ e ∈ es, e.1 ≤ h.maxKey := by
  intro e he
  obtain ⟨init, last, rfl⟩ := List.eq_nil_or_concat es |>.resolve_left (List.ne_nil_of_mem he)
  rw [List.concat_eq_append] at he hh
  rw [hh.maxKey last List.getLast?_concat]
  rcases List.mem_append.mp he with he | he
  · exact ((List.pairwise_append.mp hh.ascending).2.2 e he last List.mem_cons_self).le
  · exact (congrArg Prod.fst (List.mem_singleton.mp he)).le

/-- **Point lookup.** -/
theorem Holds.get {h : SstableHandle} {es : List SstEntry} (hh : h.Holds es) (key : Bytes) :
    h.get key = .ok (find es key) := by
  obtain ⟨chunks, hflat, hbs⟩ := hh.blocks
  have hsorted : Ascending chunks.flatten := hflat ▸ hh.ascending
  rw [SstableHandle.get]
  split
  next hout =>
    refine congrArg _ (find_eq_none fun e he ↦ ?_).symm
    rcases hout with hnil | hlt | hlt
    · rw [hnil] at hbs
      obtain rfl := List.forall₂_nil_left_iff.mp hbs
      rw [← hflat] at he
      cases he
    · exact (hlt.trans_le (hh.minKey_le e he)).ne'
    · exact ((hh.le_maxKey e he).trans_lt hlt).ne
  next hin =>
    obtain ⟨might, hmight⟩ := hh.total key
    rw [hmight, Except.ok_bind]
    cases might with
    | false =>
      -- the filter has no false negatives
      refine congrArg _ (find_eq_none fun e he heq ↦ ?_).symm
      rw [← heq, hh.bloom e he] at hmight
      cases hmight
    | true =>
      rw [blockFor_eq]
      simp only [Bool.not_true, Bool.false_eq_true, if_false]
      split
      next hnone =>
        split at hnone
        next hreach =>
          refine congrArg _ (find_eq_none fun e he ↦ ?_).symm
          exact (lookup_of_reach_eq_zero hbs hsorted hreach e (hflat ▸ he)).ne'
        next => cases hnone
      next i hi =>
        split at hi
        next => cases hi
        next hreach =>
          obtain ⟨n, hn⟩ := Nat.exists_eq_succ_of_ne_zero hreach
          obtain ⟨b, chunk, before, after, hget, hb, -, hsplit, -, hbefore, hafter⟩ :=
            split_of_reach hbs hsorted hn
          have hi : i = n := by
            have := Option.some.inj hi
            omega
          subst hi
          have hes : es = before ++ (chunk ++ after) := hflat ▸ hsplit
          have hchunk : ∀ e ∈ chunk, ShortEntry e := fun e he ↦ hh.short e
            (hes ▸ List.mem_append_right _ (List.mem_append_left _ he))
          have hasc : Ascending chunk := by
            have h := hh.ascending
            rw [hes] at h
            exact (List.pairwise_append.mp (List.pairwise_append.mp h).2.1).1
          rw [hget]
          dsimp only
          rw [hb.bytes, Except.ok_bind,
            searchBlock_encodeEntries hchunk hasc key (length_le_encodeEntries chunk), hes,
            find_append, find_append, find_eq_none fun e he ↦ (hbefore e he).ne,
            find_eq_none fun e he ↦ (hafter e he).ne', Option.none_or, Option.or_none]

/-! ## Range cursors

A cursor begins at the block that may hold its start and stops at the first entry past its end.
What it leaves out lies outside the bounds. -/

/-- The blocks from some point on, one after the other. -/
theorem cursorFrom_eq {h : SstableHandle} {bs : List Block} {chunks : List (List SstEntry)}
    (hbs : List.Forall₂ h.BlockHolds bs chunks) (hsorted : Ascending chunks.flatten)
    (hshort : ∀ e ∈ chunks.flatten, ShortEntry e) (lo hi : Bound Bytes) (i : ℕ) :
    h.cursorFrom lo hi i bs = (chunks.flatten.filter (within lo hi)).map .ok := by
  induction hbs generalizing i with
  | nil => rfl
  | @cons b chunk bs chunks hb hbs ih =>
    rw [List.flatten_cons] at hsorted hshort ⊢
    obtain ⟨hchunk, hrest, hcross⟩ := List.pairwise_append.mp hsorted
    have hshort' : ∀ e ∈ chunk, ShortEntry e := fun e he ↦ hshort e (List.mem_append_left _ he)
    have hdrain : drain hi (chunk.filter fun e ↦ !belowStart e.1 lo) = _ :=
      drain_eq (hchunk.filter _)
    rw [cursorFrom, hb.decode hshort' i]
    dsimp only
    rw [hdrain, List.filter_append, List.map_append, ← filter_within]
    dsimp only
    split
    next hdone =>
      -- what follows is past the end as well
      have hnil : chunks.flatten.filter (within lo hi) = [] :=
        filter_eq_nil_of_pastEnd (fun e he ↦ hcross e (List.mem_filter.mp he).1) hdone lo
      rw [hnil, List.map_nil, List.append_nil]
    next => rw [ih hrest (fun e he ↦ hshort e (List.mem_append_right _ he))]

theorem belowStart_of_mem_take {h : SstableHandle} {chunks : List (List SstEntry)}
    (hbs : List.Forall₂ h.BlockHolds h.blocks chunks) (hsorted : Ascending chunks.flatten)
    (lo : Bound Bytes) :
    ∀ e ∈ (chunks.take (h.firstBlock lo)).flatten, belowStart e.1 lo = true := by
  have hkey : ∀ k, ∀ e ∈ (chunks.take ((h.blockFor k).getD 0)).flatten, e.1 < k := by
    intro k
    rw [blockFor_eq]
    split
    next => simp
    next hreach =>
      obtain ⟨n, hn⟩ := Nat.exists_eq_succ_of_ne_zero hreach
      obtain ⟨-, -, before, -, -, -, -, -, htake, hbefore, -⟩ := split_of_reach hbs hsorted hn
      rw [hn, Option.getD_some, Nat.succ_sub_one, htake]
      exact hbefore
  intro e he
  cases lo with
  | included k => simpa [belowStart] using hkey k e he
  | excluded k => simpa [belowStart] using (hkey k e he).le
  | unbounded => simp [firstBlock] at he

/-- **Range cursor.** -/
theorem Holds.cursor {h : SstableHandle} {es : List SstEntry} (hh : h.Holds es) (lo hi : Bound Bytes) :
    h.cursor lo hi = (es.filter (within lo hi)).map .ok := by
  obtain ⟨chunks, hflat, hbs⟩ := hh.blocks
  have hsorted : Ascending chunks.flatten := hflat ▸ hh.ascending
  rw [SstableHandle.cursor]
  split
  next hempty =>
    rw [List.filter_eq_nil_iff.mpr, List.map_nil]
    intro e he
    rw [within_iff]
    rintro ⟨habove, hbelow⟩
    rcases hempty with hnil | hends | hstarts
    · rw [hnil] at hbs
      obtain rfl := List.forall₂_nil_left_iff.mp hbs
      rw [← hflat] at he
      cases he
    · have hmin := hh.minKey_le e he
      cases hi with
      | included k => exact absurd (of_decide_eq_true hends) (not_lt.mpr (hmin.trans hbelow))
      | excluded k => exact absurd (of_decide_eq_true hends) (not_lt.mpr (hmin.trans (le_of_lt hbelow)))
      | unbounded => cases hends
    · have hmax := hh.le_maxKey e he
      cases lo with
      | included k => exact absurd (of_decide_eq_true hstarts) (not_lt.mpr (le_trans habove hmax))
      | excluded k =>
        exact absurd (of_decide_eq_true hstarts) (not_lt.mpr (le_trans (le_of_lt habove) hmax))
      | unbounded => cases hstarts
  next =>
    have hsplit := List.take_append_drop (h.firstBlock lo) chunks
    have hdrop : List.Forall₂ h.BlockHolds (h.blocks.drop (h.firstBlock lo))
        (chunks.drop (h.firstBlock lo)) := List.forall₂_drop _ hbs
    have hflat' : es = (chunks.take (h.firstBlock lo)).flatten ++
        (chunks.drop (h.firstBlock lo)).flatten := by
      rw [← List.flatten_append, hsplit, hflat]
    have hskip : (chunks.take (h.firstBlock lo)).flatten.filter (within lo hi) = [] := by
      refine List.filter_eq_nil_iff.mpr fun e he ↦ ?_
      simp [within, belowStart_of_mem_take hbs hsorted lo e he]
    have hasc := hh.ascending
    have hshort := hh.short
    rw [hflat'] at hasc hshort
    rw [cursorFrom_eq hdrop (List.pairwise_append.mp hasc).2.1
      (fun e he ↦ hshort e (List.mem_append_right _ he)), hflat', List.filter_append, hskip,
      List.nil_append]

/-! ## Verification -/

theorem verifyBlocks_eq {h : SstableHandle} {bs : List Block} {chunks : List (List SstEntry)}
    (hbs : List.Forall₂ h.BlockHolds bs chunks) (hshort : ∀ e ∈ chunks.flatten, ShortEntry e)
    (counts : VerifyCounts) (i : ℕ) :
    ∃ counts', h.verifyBlocks counts i bs = .ok counts' ∧
      counts'.entries = counts.entries + chunks.flatten.length := by
  induction hbs generalizing counts i with
  | nil => exact ⟨counts, rfl, rfl⟩
  | @cons b chunk bs chunks hb hbs ih =>
    rw [List.flatten_cons] at hshort
    have hchunk : ∀ e ∈ chunk, ShortEntry e := fun e he ↦ hshort e (List.mem_append_left _ he)
    rw [verifyBlocks, hb.bytes, Except.ok_bind,
      decodeBlock_encodeEntries hchunk (length_le_encodeEntries chunk), Except.ok_bind]
    obtain ⟨counts', hok, hcount⟩ := ih (fun e he ↦ hshort e (List.mem_append_right _ he))
      (if b.crc.isSome then
        { counts with
          entries := counts.entries + chunk.length, blocksVerified := counts.blocksVerified + 1 }
      else
        { counts with
          entries := counts.entries + chunk.length, blocksUnchecked := counts.blocksUnchecked + 1 })
      (i + 1)
    refine ⟨counts', hok, ?_⟩
    rw [hcount, List.flatten_cons, List.length_append]
    split <;> dsimp only <;> omega

/-- **Verification.** -/
theorem Holds.verify {h : SstableHandle} {es : List SstEntry} (hh : h.Holds es) :
    ∃ counts, h.verify = .ok counts ∧ counts.entries = es.length := by
  obtain ⟨chunks, hflat, hbs⟩ := hh.blocks
  obtain ⟨counts, hok, hcount⟩ := verifyBlocks_eq hbs (fun e he ↦ hh.short e (hflat ▸ he)) {} 0
  have hentries : counts.entries = es.length := by
    rw [hcount, hflat]
    exact Nat.zero_add _
  have hnone : h.entryCount.filter (· ≠ counts.entries) = none := by
    refine Option.filter_eq_none_iff.mpr fun n hn ↦ ?_
    simp [hh.entryCount n hn, hentries]
  refine ⟨counts, ?_, hentries⟩
  rw [SstableHandle.verify, hok, Except.ok_bind, hnone]
  rfl

/-- What a table of a list of entries has to answer. -/
structure RoundTrips (h : SstableHandle) (es : List SstEntry) : Prop where
  get : ∀ key, h.get key = .ok (find es key)
  cursor : ∀ lo hi, h.cursor lo hi = (es.filter (within lo hi)).map .ok
  verify : ∃ counts, h.verify = .ok counts ∧ counts.entries = es.length

/-- **A table that holds a list of entries answers from it.** -/
theorem Holds.roundTrips {h : SstableHandle} {es : List SstEntry} (hh : h.Holds es) :
    h.RoundTrips es := ⟨hh.get, hh.cursor, hh.verify⟩

end SstableHandle
