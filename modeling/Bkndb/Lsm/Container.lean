import Bkndb.Basic.Crc32
import Bkndb.Basic.File
import Bkndb.Core.Error

/-!
# The container file

`container.rs`: one file that starts with two header slots of 64 bytes and goes on with a body to
which frames and blobs are appended. A slot points at the current manifest and carries a sequence
number; the valid slot with the higher number is the current one, and the next header always goes
into the other slot.

## Two formats

The slots of the first format have the same leading fields and no checksum of the manifest. Both
are decoded by one function that reads the version first: it tells where the checked part of the
slot ends. An unknown version is an error, and not a slot to be passed over, which is the source's
way to refuse a file of a later version.

## Reading back

A slot that was written decodes to its fields, taken modulo the width of each
(`decodeSlot_encodeSlot`). What a partly written slot decodes to is the subject of the module on
torn header writes.
-/

namespace Container

/-! ## Header slots -/

def magic : Bytes := "BKNDBLS1".toUTF8.toList

def formatVersion : ℕ := 2

def legacyFormatVersion : ℕ := 1

def headerSlotLen : ℕ := 64

/-- Where the body begins. -/
def bodyStart : ℕ := headerSlotLen * 2

/-- A decoded header slot. -/
structure HeaderSlot where
  slot : ℕ
  seq : ℕ
  manifestOffset : ℕ
  manifestLen : ℕ
  /-- Checksum of the manifest; none in a slot of the first format. -/
  manifestCrc : Option ℕ
  deriving DecidableEq

/-- The fields both formats share. -/
def commonFields (version seq manifestOffset manifestLen : ℕ) : Bytes :=
  magic ++ Bytes.be 4 version ++ Bytes.be 8 seq ++ Bytes.be 8 manifestOffset ++
    Bytes.be 8 manifestLen

/-- The fields of a slot before its checksum. -/
def slotFields (seq manifestOffset : ℕ) (manifest : Bytes) : Bytes :=
  commonFields formatVersion seq manifestOffset manifest.length ++ Bytes.be 4 (crc32 manifest)

/-- A slot as it is written: fields, checksum, twenty reserved bytes. -/
def encodeSlot (seq manifestOffset : ℕ) (manifest : Bytes) : Bytes :=
  slotFields seq manifestOffset manifest ++
    Bytes.be 4 (crc32 (slotFields seq manifestOffset manifest)) ++ List.replicate 20 0

/-- A slot of the first format, which had no checksum of the manifest. -/
def encodeLegacySlot (seq manifestOffset manifestLen : ℕ) : Bytes :=
  commonFields legacyFormatVersion seq manifestOffset manifestLen ++
    Bytes.be 4 (crc32 (commonFields legacyFormatVersion seq manifestOffset manifestLen)) ++
      List.replicate 24 0

/-- A big-endian field of a slot. -/
def field (buf : Bytes) (off width : ℕ) : ℕ := Bytes.ofBe (buf.slice off width)

/-- Where the checked part of a slot ends, and the checksum of the manifest, by format version. -/
def slotLayout (buf : Bytes) : Except BknError (ℕ × Option ℕ) :=
  let version := field buf 8 4
  if version = formatVersion then .ok (40, some (field buf 36 4))
  else if version = legacyFormatVersion then .ok (36, none)
  else .error (.backend ("unsupported .bkndb format version " ++ toString version ++
    ", expected " ++ toString formatVersion ++ " (or " ++ toString legacyFormatVersion ++ ")"))

/-- Decode a slot. A slot that is not one, or whose checksum does not match, is passed over; an
unknown version is an error. -/
def decodeSlot (slot : ℕ) (buf : Bytes) : Except BknError (Option HeaderSlot) :=
  if buf.slice 0 8 ≠ magic then .ok none
  else do
    let (crcEnd, manifestCrc) ← slotLayout buf
    if crc32 (buf.slice 0 crcEnd) ≠ field buf crcEnd 4 then return none
    else
      return some
        { slot, seq := field buf 12 8, manifestOffset := field buf 20 8,
          manifestLen := field buf 28 8, manifestCrc }

/-- The bytes of a slot of the file. -/
def slotBytes (file : Bytes) (slot : ℕ) : Bytes := file.slice (slot * headerSlotLen) headerSlotLen

/-- The current header of a file; none if the file is too short to have one. -/
def readHeader (file : Bytes) : Except BknError (Option HeaderSlot) :=
  if file.length < bodyStart then .ok none
  else do
    let a ← decodeSlot 0 (slotBytes file 0)
    let b ← decodeSlot 1 (slotBytes file 1)
    match a, b with
    | some a, some b => return some (if b.seq ≤ a.seq then a else b)
    | some a, none => return some a
    | none, some b => return some b
    | none, none =>
      if file.length = 0 then return none
      else .error (.backend "corrupt or unrecognized .bkndb header: neither slot is valid")

/-- A write of a header: the new sequence number, the slot it goes to, and the bytes. -/
structure HeaderWrite where
  seq : ℕ
  slot : ℕ
  bytes : Bytes

/-- Where in the file the slot of a header write lies. -/
def HeaderWrite.offset (w : HeaderWrite) : ℕ := w.slot * headerSlotLen

/-- What `write_header` writes: the next sequence number, into the slot that is not current. -/
def nextHeader (prevSeq prevSlot manifestOffset : ℕ) (manifest : Bytes) :
    Except BknError HeaderWrite := do
  let seq ← checkedAdd prevSeq 1
  return { seq, slot := 1 - prevSlot, bytes := encodeSlot seq manifestOffset manifest }

/-! ## Reading back what was written -/

@[simp] theorem length_magic : magic.length = 8 := by decide +kernel

@[simp] theorem length_commonFields (version seq offset len : ℕ) :
    (commonFields version seq offset len).length = 36 := by
  simp [commonFields]

@[simp] theorem length_slotFields (seq offset : ℕ) (manifest : Bytes) :
    (slotFields seq offset manifest).length = 40 := by
  simp [slotFields]

@[simp] theorem length_encodeSlot (seq offset : ℕ) (manifest : Bytes) :
    (encodeSlot seq offset manifest).length = headerSlotLen := by
  simp [encodeSlot, headerSlotLen]

@[simp] theorem length_encodeLegacySlot (seq offset len : ℕ) :
    (encodeLegacySlot seq offset len).length = headerSlotLen := by
  simp [encodeLegacySlot, headerSlotLen]

theorem field_of_eq {buf : Bytes} (a c : Bytes) {off width n : ℕ}
    (h : buf = a ++ (Bytes.be width n ++ c)) (ha : a.length = off) :
    field buf off width = n % 256 ^ width := by
  rw [field, Bytes.slice_of_eq a (Bytes.be width n) c h ha (Bytes.length_be ..), Bytes.ofBe_be]

section

variable {buf rest : Bytes} {version seq offset len : ℕ}

theorem slice_magic (h : buf = commonFields version seq offset len ++ rest) :
    buf.slice 0 8 = magic :=
  Bytes.slice_of_eq [] magic _ (by rw [h]; simp only [commonFields, List.append_assoc]; rfl) rfl
    length_magic

theorem field_version (h : buf = commonFields version seq offset len ++ rest) :
    field buf 8 4 = version % 256 ^ 4 :=
  field_of_eq magic _ (by rw [h]; simp only [commonFields, List.append_assoc]; rfl) (by simp)

theorem field_seq (h : buf = commonFields version seq offset len ++ rest) :
    field buf 12 8 = seq % 256 ^ 8 :=
  field_of_eq (magic ++ Bytes.be 4 version) _
    (by rw [h]; simp only [commonFields, List.append_assoc]; rfl) (by simp)

theorem field_manifestOffset (h : buf = commonFields version seq offset len ++ rest) :
    field buf 20 8 = offset % 256 ^ 8 :=
  field_of_eq (magic ++ Bytes.be 4 version ++ Bytes.be 8 seq) _
    (by rw [h]; simp only [commonFields, List.append_assoc]; rfl) (by simp)

theorem field_manifestLen (h : buf = commonFields version seq offset len ++ rest) :
    field buf 28 8 = len % 256 ^ 8 :=
  field_of_eq (magic ++ Bytes.be 4 version ++ Bytes.be 8 seq ++ Bytes.be 8 offset) _
    (by rw [h]; simp only [commonFields, List.append_assoc]; rfl) (by simp)

end

/-- The slot that was written, fields taken as `u64`. -/
theorem decodeSlot_encodeSlot (slot seq offset : ℕ) (manifest : Bytes) :
    decodeSlot slot (encodeSlot seq offset manifest) =
      .ok (some ⟨slot, seq % 256 ^ 8, offset % 256 ^ 8, manifest.length % 256 ^ 8,
        some (crc32 manifest)⟩) := by
  have heq : encodeSlot seq offset manifest =
      commonFields formatVersion seq offset manifest.length ++ (Bytes.be 4 (crc32 manifest) ++
        (Bytes.be 4 (crc32 (slotFields seq offset manifest)) ++ List.replicate 20 0)) := by
    simp only [encodeSlot, slotFields, List.append_assoc]
  have hversion : field (encodeSlot seq offset manifest) 8 4 = formatVersion := field_version heq
  have hcrc : field (encodeSlot seq offset manifest) 36 4 = crc32 manifest := by
    rw [field_of_eq _ _ heq (by simp), Nat.mod_eq_of_lt (crc32_lt _)]
  have hchecked : (encodeSlot seq offset manifest).slice 0 40 = slotFields seq offset manifest :=
    Bytes.slice_of_eq [] _ _ (by simp only [encodeSlot, List.append_assoc]; rfl) rfl (by simp)
  have hsum : field (encodeSlot seq offset manifest) 40 4 =
      crc32 (slotFields seq offset manifest) := by
    rw [field_of_eq (slotFields seq offset manifest) (List.replicate 20 0)
      (by simp only [encodeSlot, List.append_assoc]; rfl) (by simp), Nat.mod_eq_of_lt (crc32_lt _)]
  have hlayout : slotLayout (encodeSlot seq offset manifest) = .ok (40, some (crc32 manifest)) := by
    rw [slotLayout, if_pos hversion, hcrc]
  rw [decodeSlot, if_neg (not_not.mpr (slice_magic heq)), hlayout, Except.ok_bind]
  dsimp only
  rw [if_neg]
  · rw [field_seq heq, field_manifestOffset heq, field_manifestLen heq]
    rfl
  · rw [hchecked, hsum]
    exact not_not.mpr rfl

theorem decodeSlot_encodeSlot_of_lt (slot : ℕ) {seq offset : ℕ} {manifest : Bytes}
    (hseq : seq < 2 ^ 64) (hoffset : offset < 2 ^ 64) (hmanifest : manifest.length < 2 ^ 64) :
    decodeSlot slot (encodeSlot seq offset manifest) =
      .ok (some ⟨slot, seq, offset, manifest.length, some (crc32 manifest)⟩) := by
  rw [show (2 : ℕ) ^ 64 = 256 ^ 8 by norm_num] at hseq hoffset hmanifest
  rw [decodeSlot_encodeSlot, Nat.mod_eq_of_lt hseq, Nat.mod_eq_of_lt hoffset,
    Nat.mod_eq_of_lt hmanifest]

/-- The slot the first format wrote. -/
theorem decodeSlot_encodeLegacySlot (slot seq offset len : ℕ) :
    decodeSlot slot (encodeLegacySlot seq offset len) =
      .ok (some ⟨slot, seq % 256 ^ 8, offset % 256 ^ 8, len % 256 ^ 8, none⟩) := by
  have heq : encodeLegacySlot seq offset len =
      commonFields legacyFormatVersion seq offset len ++
        (Bytes.be 4 (crc32 (commonFields legacyFormatVersion seq offset len)) ++
          List.replicate 24 0) := by
    simp only [encodeLegacySlot, List.append_assoc]
  have hversion : field (encodeLegacySlot seq offset len) 8 4 = legacyFormatVersion :=
    field_version heq
  have hchecked : (encodeLegacySlot seq offset len).slice 0 36 =
      commonFields legacyFormatVersion seq offset len :=
    Bytes.slice_of_eq [] _ _ heq rfl (by simp)
  have hsum : field (encodeLegacySlot seq offset len) 36 4 =
      crc32 (commonFields legacyFormatVersion seq offset len) := by
    rw [field_of_eq _ _ heq (by simp), Nat.mod_eq_of_lt (crc32_lt _)]
  have hlayout : slotLayout (encodeLegacySlot seq offset len) = .ok (36, none) := by
    rw [slotLayout, if_neg (by rw [hversion]; decide), if_pos hversion]
  rw [decodeSlot, if_neg (not_not.mpr (slice_magic heq)), hlayout, Except.ok_bind]
  dsimp only
  rw [if_neg]
  · rw [field_seq heq, field_manifestOffset heq, field_manifestLen heq]
    rfl
  · rw [hchecked, hsum]
    exact not_not.mpr rfl

/-! ## Blobs -/

/-- Read a byte range of the file. -/
def readBlob (file : Bytes) (offset len : ℕ) : Except BknError Bytes :=
  if 2 ^ 64 ≤ offset + len then
    .error (.corruption ("blob range overflow: offset=" ++ toString offset ++ ", len=" ++
      toString len))
  else if file.length < offset + len then
    .error (.corruption ("blob extends past EOF: offset=" ++ toString offset ++ ", len=" ++
      toString len ++ ", file_len=" ++ toString file.length))
  else .ok (file.slice offset len)

/-- Read the manifest a slot points at and compare its checksum. -/
def readManifest (file : Bytes) (slot : HeaderSlot) : Except BknError Bytes :=
  match readBlob file slot.manifestOffset slot.manifestLen with
  | .error (.corruption message) =>
    .error (.corruption ("manifest unreadable: data corruption detected: " ++ message))
  | .error e => .error e
  | .ok bytes =>
    if slot.manifestCrc.any (· ≠ crc32 bytes) then
      .error (.corruption "manifest checksum mismatch")
    else .ok bytes

end Container
