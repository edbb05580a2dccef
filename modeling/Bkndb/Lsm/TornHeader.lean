import Bkndb.Lsm.Container
import Mathlib.Tactic.IntervalCases

/-!
# Torn header writes

A header write that reaches the file only in part leaves the first bytes of the new slot over the
older contents of the slot that is not current. The double buffering is there so that the next open
then finds the current slot, or the new one if it is complete. Over a slot that holds an older
header this works for every cut. Over a slot that was never written it fails when the cut falls
inside the version field: the magic is there, the version reads as zero, and an unknown version is
an error.

## The condition

A slot that was never written is all zeros. With fewer than eight bytes of a header over it the
magic is incomplete, and the slot is passed over. With eight to eleven bytes the magic is there,
and of the version only the leading zeros, so that it reads as zero, which no format has. From
twelve bytes on the version is complete, and the checksum decides.

The checksum of a mixture could match by accident, so that it does not is a hypothesis, about the
mixture at hand.
-/

namespace Container

/-! ## The two slots

Which of two decoded slots is the current header, by cases on what the slots decode to. -/

theorem one_sub_slot {i : ℕ} (h : i ≤ 1) : (i = 0 ∧ 1 - i = 1) ∨ (i = 1 ∧ 1 - i = 0) := by omega

section

variable {file : Bytes} {i : ℕ} {a : HeaderSlot}

theorem readHeader_of_none (hlen : bodyStart ≤ file.length) (hi : i ≤ 1)
    (ha : decodeSlot i (slotBytes file i) = .ok (some a))
    (hb : decodeSlot (1 - i) (slotBytes file (1 - i)) = .ok none) :
    readHeader file = .ok (some a) := by
  rw [readHeader, if_neg (not_lt.mpr hlen)]
  rcases one_sub_slot hi with ⟨rfl, h⟩ | ⟨rfl, h⟩
  · rw [h] at hb
    rw [ha, hb]
    rfl
  · rw [h] at hb
    rw [ha, hb]
    rfl

theorem readHeader_of_lt {b : HeaderSlot} (hlen : bodyStart ≤ file.length) (hi : i ≤ 1)
    (ha : decodeSlot i (slotBytes file i) = .ok (some a))
    (hb : decodeSlot (1 - i) (slotBytes file (1 - i)) = .ok (some b)) (hlt : b.seq < a.seq) :
    readHeader file = .ok (some a) := by
  rw [readHeader, if_neg (not_lt.mpr hlen)]
  rcases one_sub_slot hi with ⟨rfl, h⟩ | ⟨rfl, h⟩
  · rw [h] at hb
    rw [ha, hb, Except.ok_bind, Except.ok_bind]
    dsimp only
    rw [if_pos hlt.le]
    rfl
  · rw [h] at hb
    rw [ha, hb, Except.ok_bind, Except.ok_bind]
    dsimp only
    rw [if_neg (not_le.mpr hlt)]
    rfl

theorem readHeader_of_error {e : BknError} (hlen : bodyStart ≤ file.length) (hi : i ≤ 1)
    (ha : decodeSlot i (slotBytes file i) = .ok (some a))
    (hb : decodeSlot (1 - i) (slotBytes file (1 - i)) = .error e) : readHeader file = .error e := by
  rw [readHeader, if_neg (not_lt.mpr hlen)]
  rcases one_sub_slot hi with ⟨rfl, h⟩ | ⟨rfl, h⟩
  · rw [h] at hb
    rw [ha, hb]
    rfl
  · rw [h] at hb
    rw [hb]
    rfl

end

/-! ## A torn write -/

/-- The file after the first `n` bytes of a header write have reached it. -/
def tornHeader (file : Bytes) (w : HeaderWrite) (n : ℕ) : Bytes :=
  file.writeAt w.offset (w.bytes.take n)

/-- The first `n` bytes of one slot over another. -/
def mixed (old new : Bytes) (n : ℕ) : Bytes := new.take n ++ old.drop n

/-- A slot that was never written. -/
def emptySlot : Bytes := List.replicate headerSlotLen 0

/-- What the slot that is not current may hold: nothing, or an older header of either format. -/
inductive OlderSlot (seq : ℕ) : Bytes → Prop
  | empty : OlderSlot seq emptySlot
  | current {seq'} (h : seq' < seq) (offset : ℕ) (manifest : Bytes) :
    OlderSlot seq (encodeSlot seq' offset manifest)
  | legacy {seq'} (h : seq' < seq) (offset len : ℕ) :
    OlderSlot seq (encodeLegacySlot seq' offset len)

/-- A file with a current header. -/
structure HasHeader (file : Bytes) (active : HeaderSlot) : Prop where
  length : bodyStart ≤ file.length
  slot : active.slot ≤ 1
  valid : decodeSlot active.slot (slotBytes file active.slot) = .ok (some active)
  older : OlderSlot active.seq (slotBytes file (1 - active.slot))

/-- The checksum of a slot matches its contents. -/
def checksumMatches (buf : Bytes) : Bool :=
  match slotLayout buf with
  | .ok (crcEnd, _) => crc32 (buf.slice 0 crcEnd) = field buf crcEnd 4
  | .error _ => false

/-- The checksum rejects a mixture that is neither of the two slots it is made of. -/
def RejectsMixed (old new : Bytes) (n : ℕ) : Prop :=
  mixed old new n ≠ old → mixed old new n ≠ new → ¬checksumMatches (mixed old new n)

/-- The read after a torn write gives the header that was current or the complete new one, and the
new one if all of its bytes but the reserved ones were written. -/
def Survives (file : Bytes) (active fresh : HeaderSlot) (n : ℕ) : Prop :=
  ∃ s, readHeader file = .ok (some s) ∧ (s = active ∨ s = fresh) ∧ (44 ≤ n → s = fresh)

theorem length_slotBytes {file : Bytes} {i : ℕ} (hlen : bodyStart ≤ file.length) (hi : i ≤ 1) :
    (slotBytes file i).length = headerSlotLen := by
  rw [bodyStart] at hlen
  refine Bytes.length_slice_of_le ?_
  rcases one_sub_slot hi with ⟨rfl, -⟩ | ⟨rfl, -⟩ <;> omega

section

variable {file : Bytes} {w : HeaderWrite} {n : ℕ}

theorem length_tornHeader (hlen : bodyStart ≤ file.length) (hslot : w.slot ≤ 1)
    (hw : w.bytes.length = headerSlotLen) : (tornHeader file w n).length = file.length := by
  refine Bytes.length_writeAt_of_le ?_
  rw [bodyStart] at hlen
  rw [HeaderWrite.offset, List.length_take, hw]
  rcases one_sub_slot hslot with ⟨h, -⟩ | ⟨h, -⟩ <;> rw [h] <;> omega

/-- The slot the write goes to becomes a mixture. -/
theorem slotBytes_tornHeader_self (hlen : bodyStart ≤ file.length) (hslot : w.slot ≤ 1)
    (hw : w.bytes.length = headerSlotLen) :
    slotBytes (tornHeader file w n) w.slot = mixed (slotBytes file w.slot) w.bytes n := by
  have hoff : w.offset + headerSlotLen ≤ file.length := by
    rw [bodyStart] at hlen
    rw [HeaderWrite.offset]
    rcases one_sub_slot hslot with ⟨h, -⟩ | ⟨h, -⟩ <;> rw [h] <;> omega
  have htake : (w.bytes.take n).length = min n headerSlotLen := by rw [List.length_take, hw]
  rw [slotBytes, tornHeader, Bytes.writeAt_of_le (by omega), mixed]
  change Bytes.slice _ w.offset headerSlotLen = _
  have hpre : (file.take w.offset).length = w.offset := List.length_take_of_le (by omega)
  rw [Bytes.slice, List.append_assoc, List.drop_left' hpre, List.take_append, htake,
    List.take_of_length_le (by omega)]
  congr 1
  rw [slotBytes, Bytes.slice, List.drop_take, List.drop_drop]
  change _ = List.take _ (List.drop (w.offset + n) file)
  by_cases hn : n ≤ headerSlotLen
  · rw [Nat.min_eq_left hn]
  · rw [Nat.min_eq_right (by omega), Nat.sub_self, Nat.sub_eq_zero_of_le (by omega), List.take_zero,
      List.take_zero]

/-- The current slot stays. -/
theorem slotBytes_tornHeader_other (hlen : bodyStart ≤ file.length) (hslot : w.slot ≤ 1)
    (hw : w.bytes.length = headerSlotLen) :
    slotBytes (tornHeader file w n) (1 - w.slot) = slotBytes file (1 - w.slot) := by
  have htake : (w.bytes.take n).length ≤ headerSlotLen := by rw [List.length_take, hw]; omega
  rw [bodyStart] at hlen
  rw [slotBytes, slotBytes, tornHeader, HeaderWrite.offset]
  rcases one_sub_slot hslot with ⟨h, h'⟩ | ⟨h, h'⟩
  · rw [h', h]
    exact Bytes.slice_writeAt_after (by omega) (by omega)
  · rw [h', h]
    exact Bytes.slice_writeAt_before (by omega) (by omega)

theorem slice_tornHeader (hlen : bodyStart ≤ file.length) (hslot : w.slot ≤ 1)
    (hw : w.bytes.length = headerSlotLen) {off len : ℕ} (hoff : bodyStart ≤ off) :
    (tornHeader file w n).slice off len = file.slice off len := by
  have htake : (w.bytes.take n).length ≤ headerSlotLen := by rw [List.length_take, hw]; omega
  rw [bodyStart] at hlen hoff
  rw [tornHeader, HeaderWrite.offset]
  rcases one_sub_slot hslot with ⟨h, -⟩ | ⟨h, -⟩
  · rw [h]
    exact Bytes.slice_writeAt_after (by omega) (by omega)
  · rw [h]
    exact Bytes.slice_writeAt_after (by omega) (by omega)

theorem tornHeader_append (hlen : bodyStart ≤ file.length) (hslot : w.slot ≤ 1)
    (hw : w.bytes.length = headerSlotLen) (x : Bytes) :
    tornHeader (file ++ x) w n = tornHeader file w n ++ x := by
  have htake : (w.bytes.take n).length ≤ headerSlotLen := by rw [List.length_take, hw]; omega
  have hoff : w.offset + headerSlotLen ≤ file.length := by
    rw [bodyStart] at hlen
    rw [HeaderWrite.offset]
    rcases one_sub_slot hslot with ⟨h, -⟩ | ⟨h, -⟩ <;> rw [h] <;> omega
  rw [tornHeader, tornHeader, Bytes.writeAt_of_le (by rw [List.length_append]; omega),
    Bytes.writeAt_of_le (by omega), List.take_append_of_le_length (by omega),
    List.drop_append_of_le_length (by omega)]
  simp only [List.append_assoc]

end

/-! ## Mixtures

What a mixture decodes to depends on how far the new bytes reach: into the magic, into the version,
into the checked fields, or up to the reserved bytes. -/

theorem mixed_of_common {c x y : Bytes} {n : ℕ} (h : n ≤ c.length) :
    mixed (c ++ y) (c ++ x) n = c ++ y := by
  rw [mixed, List.take_append_of_le_length h, List.drop_append_of_le_length h, ← List.append_assoc,
    List.take_append_drop]

theorem mixed_headerSlotLen {old : Bytes} (hold : old.length = headerSlotLen) (seq offset : ℕ)
    (manifest : Bytes) :
    mixed old (encodeSlot seq offset manifest) headerSlotLen = encodeSlot seq offset manifest := by
  rw [mixed, List.take_of_length_le (length_encodeSlot ..).le, List.drop_eq_nil_of_le hold.le,
    List.append_nil]

theorem drop_encodeSlot (seq offset : ℕ) (manifest : Bytes) :
    (encodeSlot seq offset manifest).drop 44 = List.replicate 20 0 := by
  rw [encodeSlot, List.drop_left' (by simp)]

theorem OlderSlot.drop {seq : ℕ} {old : Bytes} (h : OlderSlot seq old) :
    old.drop 44 = List.replicate 20 0 := by
  cases h with
  | empty => rfl
  | current _ offset manifest => exact drop_encodeSlot _ offset manifest
  | legacy _ offset len =>
    rw [encodeLegacySlot, ← List.drop_drop (i := 4) (j := 40), List.drop_left' (by simp)]
    rfl

theorem mixed_of_le {seq seq' offset n : ℕ} {manifest old : Bytes} (h : OlderSlot seq old)
    (hn : 44 ≤ n) :
    mixed old (encodeSlot seq' offset manifest) n = encodeSlot seq' offset manifest := by
  have hdrop : old.drop n = (encodeSlot seq' offset manifest).drop n := by
    obtain ⟨k, rfl⟩ := Nat.exists_eq_add_of_le hn
    rw [← List.drop_drop, ← List.drop_drop, h.drop, drop_encodeSlot]
  rw [mixed, hdrop, List.take_append_drop]

/-- An older slot is passed over or holds a lower sequence number. -/
theorem OlderSlot.decodeSlot {seq : ℕ} {old : Bytes} (h : OlderSlot seq old) (i : ℕ) :
    decodeSlot i old = .ok none ∨ ∃ b, decodeSlot i old = .ok (some b) ∧ b.seq < seq := by
  cases h with
  | empty =>
    left
    rw [Container.decodeSlot, if_pos (by decide +kernel)]
  | current h offset manifest =>
    exact .inr ⟨_, decodeSlot_encodeSlot i _ offset manifest, lt_of_le_of_lt (Nat.mod_le ..) h⟩
  | legacy h offset len =>
    exact .inr ⟨_, decodeSlot_encodeLegacySlot i _ offset len, lt_of_le_of_lt (Nat.mod_le ..) h⟩

theorem decodeSlot_of_rejected {buf : Bytes} (i : ℕ) (h : ¬checksumMatches buf)
    (hlayout : ∃ r, slotLayout buf = .ok r) : decodeSlot i buf = .ok none := by
  obtain ⟨⟨crcEnd, manifestCrc⟩, hr⟩ := hlayout
  rw [decodeSlot]
  split
  · rfl
  · rw [hr, Except.ok_bind]
    dsimp only
    rw [checksumMatches, hr] at h
    rw [if_pos fun heq ↦ h (decide_eq_true heq)]
    rfl

theorem encodeSlot_eq_commonFields (seq offset : ℕ) (manifest : Bytes) :
    encodeSlot seq offset manifest =
      commonFields formatVersion seq offset manifest.length ++ (Bytes.be 4 (crc32 manifest) ++
        (Bytes.be 4 (crc32 (slotFields seq offset manifest)) ++ List.replicate 20 0)) := by
  simp only [encodeSlot, slotFields, List.append_assoc]

/-- The version field of a mixture that is past it is the current version. -/
theorem slotLayout_mixed {seq offset n : ℕ} {manifest old : Bytes} (hn : 12 ≤ n) :
    ∃ r, slotLayout (mixed old (encodeSlot seq offset manifest) n) = .ok r := by
  have hlen := length_encodeSlot seq offset manifest
  have htake : 8 + 4 ≤ ((encodeSlot seq offset manifest).take n).length := by
    rw [List.length_take, hlen, headerSlotLen]
    omega
  have hversion : field (mixed old (encodeSlot seq offset manifest) n) 8 4 = formatVersion := by
    rw [field, mixed, Bytes.slice_append_left htake]
    rw [← Bytes.slice_append_left htake ((encodeSlot seq offset manifest).drop n),
      List.take_append_drop]
    exact field_version (encodeSlot_eq_commonFields seq offset manifest)
  exact ⟨_, by rw [slotLayout, if_pos hversion]⟩

/-- The first eleven bytes of every slot: the magic and the leading zeros of the version. -/
def slotStart : Bytes := magic ++ [0, 0, 0]

theorem length_slotStart : slotStart.length = 11 := by decide +kernel

theorem commonFields_eq_slotStart {version : ℕ} {b : UInt8}
    (h : Bytes.be 4 version = [0, 0, 0] ++ [b]) (seq offset len : ℕ) :
    ∃ x, commonFields version seq offset len = slotStart ++ x :=
  ⟨_, by rw [commonFields, h]; simp only [slotStart, List.append_assoc]; rfl⟩

theorem encodeSlot_eq_slotStart (seq offset : ℕ) (manifest : Bytes) :
    ∃ x, encodeSlot seq offset manifest = slotStart ++ x := by
  obtain ⟨x, hx⟩ := commonFields_eq_slotStart (b := 2) (show Bytes.be 4 formatVersion = _ from rfl) seq offset
    manifest.length
  exact ⟨_, by rw [encodeSlot, slotFields, hx]; simp only [List.append_assoc]; rfl⟩

theorem encodeLegacySlot_eq_slotStart (seq offset len : ℕ) :
    ∃ x, encodeLegacySlot seq offset len = slotStart ++ x := by
  obtain ⟨x, hx⟩ := commonFields_eq_slotStart (b := 1) (show Bytes.be 4 legacyFormatVersion = _ from rfl) seq
    offset len
  exact ⟨_, by rw [encodeLegacySlot, hx]; simp only [List.append_assoc]; rfl⟩

/-- Over an older header a cut inside the version field changes nothing. -/
theorem mixed_of_lt {seq seq' offset n : ℕ} {manifest old : Bytes} (h : OlderSlot seq old)
    (hne : old ≠ emptySlot) (hn : n < 12) :
    mixed old (encodeSlot seq' offset manifest) n = old := by
  obtain ⟨x, hx⟩ := encodeSlot_eq_slotStart seq' offset manifest
  have hlen : n ≤ slotStart.length := by
    rw [length_slotStart]
    omega
  cases h with
  | empty => exact absurd rfl hne
  | current _ offset' manifest' =>
    obtain ⟨y, hy⟩ := encodeSlot_eq_slotStart _ offset' manifest'
    rw [hx, hy, mixed_of_common hlen]
  | legacy _ offset' len' =>
    obtain ⟨y, hy⟩ := encodeLegacySlot_eq_slotStart _ offset' len'
    rw [hx, hy, mixed_of_common hlen]

theorem decodeSlot_mixed_magic {seq offset n : ℕ} {manifest : Bytes} (i : ℕ) (hn : n < 8) :
    decodeSlot i (mixed emptySlot (encodeSlot seq offset manifest) n) = .ok none := by
  obtain ⟨x, hx⟩ := encodeSlot_eq_slotStart seq offset manifest
  rw [decodeSlot, if_pos]
  rw [hx, mixed, List.take_append_of_le_length (by rw [length_slotStart]; omega)]
  interval_cases n <;> decide +kernel

/-- A cut inside the version of a slot that was never written: the version reads as zero. -/
theorem decodeSlot_mixed_version {seq offset n : ℕ} {manifest : Bytes} (i : ℕ) (hlo : 8 ≤ n)
    (hhi : n ≤ 11) :
    decodeSlot i (mixed emptySlot (encodeSlot seq offset manifest) n) =
      .error (.backend "unsupported .bkndb format version 0, expected 2 (or 1)") := by
  obtain ⟨x, hx⟩ := encodeSlot_eq_slotStart seq offset manifest
  have hmixed : mixed emptySlot (encodeSlot seq offset manifest) n =
      slotStart.take n ++ emptySlot.drop n := by
    rw [hx, mixed, List.take_append_of_le_length (hhi.trans_eq length_slotStart.symm)]
  have hmagic : Bytes.slice (slotStart.take n ++ emptySlot.drop n) 0 8 = magic := by
    interval_cases n <;> decide +kernel
  have hversion : field (slotStart.take n ++ emptySlot.drop n) 8 4 = 0 := by
    interval_cases n <;> decide +kernel
  rw [hmixed, decodeSlot, if_neg (not_not.mpr hmagic), slotLayout, hversion]
  rfl

/-! ## Survival

The file before the write has a current header in one slot and something older, or nothing, in the
other one. -/

section

variable {file : Bytes} {active : HeaderSlot} {offset n : ℕ} {manifest : Bytes}

/-- What `write_header` writes over a file with a current header. -/
def nextWrite (active : HeaderSlot) (offset : ℕ) (manifest : Bytes) : HeaderWrite where
  seq := active.seq + 1
  slot := 1 - active.slot
  bytes := encodeSlot (active.seq + 1) offset manifest

theorem nextHeader_eq_ok {w : HeaderWrite} :
    nextHeader active.seq active.slot offset manifest = .ok w ↔
      active.seq + 1 < 2 ^ 64 ∧ w = nextWrite active offset manifest := by
  rw [nextHeader, Except.bind_eq_ok]
  constructor
  · rintro ⟨seq, hseq, hw⟩
    obtain ⟨hlt, rfl⟩ := checkedAdd_eq_ok.mp hseq
    exact ⟨hlt, (Except.ok.inj hw).symm⟩
  · rintro ⟨hlt, rfl⟩
    exact ⟨_, checkedAdd_eq_ok.mpr ⟨hlt, rfl⟩, rfl⟩

/-- The torn file has the same length, a mixture in one slot and the other slot as before. -/
theorem HasHeader.torn (h : HasHeader file active) (offset n : ℕ) (manifest : Bytes) :
    bodyStart ≤ (tornHeader file (nextWrite active offset manifest) n).length ∧
      slotBytes (tornHeader file (nextWrite active offset manifest) n) (1 - active.slot) =
        mixed (slotBytes file (1 - active.slot)) (encodeSlot (active.seq + 1) offset manifest) n ∧
      decodeSlot active.slot
        (slotBytes (tornHeader file (nextWrite active offset manifest) n) active.slot) =
          .ok (some active) := by
  have hslot : (nextWrite active offset manifest).slot ≤ 1 := Nat.sub_le ..
  have hbytes : (nextWrite active offset manifest).bytes.length = headerSlotLen :=
    length_encodeSlot ..
  have hback : 1 - (nextWrite active offset manifest).slot = active.slot := by
    change 1 - (1 - active.slot) = active.slot
    have := h.slot
    omega
  refine ⟨?_, slotBytes_tornHeader_self h.length hslot hbytes, ?_⟩
  · rw [length_tornHeader h.length hslot hbytes]
    exact h.length
  · rw [← hback, slotBytes_tornHeader_other h.length hslot hbytes, hback]
    exact h.valid

/-- A cut inside the version field of a slot that was never written fails the next read. -/
theorem HasHeader.not_survives (h : HasHeader file active)
    (hempty : slotBytes file (1 - active.slot) = emptySlot) (hlo : 8 ≤ n) (hhi : n ≤ 11)
    (fresh : HeaderSlot) :
    ¬Survives (tornHeader file (nextWrite active offset manifest) n) active fresh n := by
  obtain ⟨hlength, hmixed, hactive⟩ := h.torn offset n manifest
  rintro ⟨s, hs, -⟩
  have herror := readHeader_of_error hlength h.slot hactive (by
    rw [hmixed, hempty]
    exact decodeSlot_mixed_version _ hlo hhi)
  rw [herror] at hs
  cases hs

/-- Every other cut is survived. -/
theorem HasHeader.survives (h : HasHeader file active) (hseq : active.seq + 1 < 2 ^ 64)
    (hoffset : offset < 2 ^ 64) (hmanifest : manifest.length < 2 ^ 64)
    (hrejects : RejectsMixed (slotBytes file (1 - active.slot))
      (encodeSlot (active.seq + 1) offset manifest) n)
    (hcond : ¬(slotBytes file (1 - active.slot) = emptySlot ∧ 8 ≤ n ∧ n ≤ 11)) :
    Survives (tornHeader file (nextWrite active offset manifest) n) active
      ⟨1 - active.slot, active.seq + 1, offset, manifest.length, some (crc32 manifest)⟩ n := by
  obtain ⟨hlength, hmixed, hactive⟩ := h.torn offset n manifest
  set new := encodeSlot (active.seq + 1) offset manifest with hnew
  set old := slotBytes file (1 - active.slot) with hold
  by_cases hcomplete : mixed old new n = new
  · -- the new slot is there
    refine ⟨_, readHeader_of_lt (i := 1 - active.slot) (b := active) hlength (Nat.sub_le ..) ?_ ?_
      (Nat.lt_succ_self _), .inr rfl, fun _ ↦ rfl⟩
    · rw [hmixed, hcomplete, hnew, decodeSlot_encodeSlot_of_lt _ hseq hoffset hmanifest]
    · rw [show 1 - (1 - active.slot) = active.slot by have := h.slot; omega]
      exact hactive
  · have hn : n < 44 := not_le.mp fun hn ↦ hcomplete (mixed_of_le h.older hn)
    refine ⟨active, ?_, .inl rfl, fun hle ↦ absurd hle (not_le.mpr hn)⟩
    by_cases hsame : mixed old new n = old
    · -- nothing has changed yet
      rw [hsame] at hmixed
      rcases h.older.decodeSlot (1 - active.slot) with hnone | ⟨b, hb, hlt⟩
      · exact readHeader_of_none hlength h.slot hactive (hmixed ▸ hnone)
      · exact readHeader_of_lt hlength h.slot hactive (hmixed ▸ hb) hlt
    · refine readHeader_of_none hlength h.slot hactive ?_
      rw [hmixed]
      by_cases h12 : 12 ≤ n
      · exact decodeSlot_of_rejected _ (hrejects hsame hcomplete) (slotLayout_mixed h12)
      · by_cases hempty : old = emptySlot
        · rw [hempty]
          refine decodeSlot_mixed_magic _ (not_le.mp fun h8 ↦ hcond ⟨hempty, h8, ?_⟩)
          omega
        · exact absurd (mixed_of_lt h.older hempty (not_le.mp h12)) hsame

end

/-- **Torn header writes.** Over a file with a current header, and if the checksum rejects mixtures,
a torn header write is survived exactly unless the slot it goes to was never written and the cut
falls inside the version field. -/
theorem survives_torn_header_iff (file : Bytes) (active : HeaderSlot) (hfile : HasHeader file active)
    (offset : ℕ) (manifest : Bytes) (hoffset : offset < 2 ^ 64) (hmanifest : manifest.length < 2 ^ 64)
    (w : HeaderWrite) (hw : nextHeader active.seq active.slot offset manifest = .ok w) (n : ℕ)
    (hrejects : RejectsMixed (slotBytes file w.slot) w.bytes n) :
    Survives (tornHeader file w n) active
        ⟨w.slot, w.seq, offset, manifest.length, some (crc32 manifest)⟩ n ↔
      ¬(slotBytes file w.slot = emptySlot ∧ 8 ≤ n ∧ n ≤ 11) := by
  obtain ⟨hseq, rfl⟩ := nextHeader_eq_ok.mp hw
  constructor
  · rintro hs ⟨hempty, hlo, hhi⟩
    exact hfile.not_survives hempty hlo hhi _ hs
  · exact hfile.survives hseq hoffset hmanifest hrejects

/-- A file whose second slot was never written, as the first open leaves it. -/
def firstFile : Bytes := encodeSlot 1 128 [7] ++ emptySlot

/-- Its header. -/
def firstHeader : HeaderSlot := ⟨0, 1, 128, 1, some (crc32 [7])⟩

theorem hasHeader_firstFile : HasHeader firstFile firstHeader where
  length := by decide +kernel
  slot := Nat.zero_le 1
  valid := by
    rw [show slotBytes firstFile firstHeader.slot = encodeSlot 1 128 [7] by decide +kernel]
    exact decodeSlot_encodeSlot_of_lt 0 (by norm_num) (by norm_num) (by decide)
  older := by
    rw [show slotBytes firstFile (1 - firstHeader.slot) = emptySlot by decide +kernel]
    exact .empty

/-- A cut in the middle of the sequence number is survived. -/
theorem survives_torn_header_first_file :
    Survives (tornHeader firstFile (nextWrite firstHeader 200 [8]) 20) firstHeader
      ⟨1, 2, 200, 1, some (crc32 [8])⟩ 20 := by
  refine (survives_torn_header_iff firstFile firstHeader hasHeader_firstFile 200 [8] (by norm_num)
    (by norm_num) (nextWrite firstHeader 200 [8]) (nextHeader_eq_ok.mpr ⟨by decide, rfl⟩) 20 ?_).mpr
      (by omega)
  intro _ _
  decide +kernel

/-- Eight bytes of the next header over the slot that was never written: the next open fails. -/
theorem not_survives_torn_header_first_file :
    ¬∀ (file : Bytes) (active : HeaderSlot), HasHeader file active →
      ∀ (offset : ℕ) (manifest : Bytes), offset < 2 ^ 64 → manifest.length < 2 ^ 64 →
      ∀ w, nextHeader active.seq active.slot offset manifest = .ok w →
      ∀ n ≤ 64, RejectsMixed (slotBytes file w.slot) w.bytes n →
      Survives (tornHeader file w n) active
        ⟨w.slot, w.seq, offset, manifest.length, some (crc32 manifest)⟩ n := by
  intro h
  have hempty : slotBytes firstFile (1 - firstHeader.slot) = emptySlot := by decide +kernel
  have hsurvives := h firstFile firstHeader hasHeader_firstFile 200 [8] (by norm_num) (by norm_num) _
    (nextHeader_eq_ok.mpr ⟨by decide, rfl⟩) 8 (by norm_num)
  refine hasHeader_firstFile.not_survives hempty le_rfl (by norm_num) _ (hsurvives ?_)
  -- the version is unknown, so there is no checksum to match
  intro _ _
  decide +kernel

end Container
