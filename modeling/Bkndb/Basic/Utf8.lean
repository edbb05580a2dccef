import Bkndb.Basic.Bytes
import Mathlib.Data.List.Basic
import Mathlib.Data.List.DropRight

/-!
# Text by byte offsets

A text is a list of characters; an offset into it counts the bytes of their encoding. Only some
offsets lie between two characters, and a slice is taken at those alone.

`Cut l i r` says that the offset `i` lies before the characters `r`; the byte found there tells the
first of them whenever it is an ASCII byte, since the encoding of any other character has none.

## Two views

Programs index bytes and mean characters. Here the text is a list of characters and the bytes are
computed, so an offset inside a character is one at which `splitAt` has no answer; where the
program would panic, the model has `none`.

## Scanning by bytes

A scanner that looks at single bytes and acts only on ASCII ones may be read as a scanner of
characters: `firstByte_eq_iff` and `length_takeWhile_bytes` are the two facts that this takes.
-/

/-- `char::is_whitespace`: the characters with the property `White_Space`. -/
def isWhitespace (c : Char) : Bool :=
  let n := c.toNat
  n == 0x20 || (0x9 ≤ n && n ≤ 0xD) || n == 0x85 || n == 0xA0 || n == 0x1680 ||
    (0x2000 ≤ n && n ≤ 0x200A) || n == 0x2028 || n == 0x2029 || n == 0x202F || n == 0x205F ||
    n == 0x3000

/-- `str::trim`. -/
def trim (s : List Char) : List Char := (s.dropWhile isWhitespace).rdropWhile isWhitespace

namespace Utf8

/-- The bytes a text takes. -/
def size (l : List Char) : ℕ := (l.map Char.utf8Size).sum

/-- The encoding of a text. -/
def bytes (l : List Char) : Bytes := l.flatMap String.utf8EncodeChar

/-- The two parts of a text at an offset, or `none` inside a character or past the end. -/
def splitAt : List Char → ℕ → Option (List Char × List Char)
  | l, 0 => some ([], l)
  | [], _ + 1 => none
  | c :: l, n + 1 =>
    if c.utf8Size ≤ n + 1 then (splitAt l (n + 1 - c.utf8Size)).map fun p ↦ (c :: p.1, p.2) else none

/-- The text from an offset on. -/
def drop (l : List Char) (i : ℕ) : Option (List Char) := (splitAt l i).map Prod.snd

/-- The offset of the first character with a property. -/
def find (p : Char → Bool) : List Char → Option ℕ
  | [] => none
  | c :: l => if p c then some 0 else (find p l).map (c.utf8Size + ·)

/-- The offset of the first occurrence of a text. -/
def findText (pat : List Char) : List Char → Option ℕ
  | [] => if pat = [] then some 0 else none
  | c :: l => if pat.isPrefixOf (c :: l) then some 0 else (findText pat l).map (c.utf8Size + ·)

/-- The text between two offsets. -/
def slice (l : List Char) (i j : ℕ) : Option (List Char) :=
  if i ≤ j then (drop l i).bind fun r ↦ (splitAt r (j - i)).map Prod.fst else none

/-! ## Sizes -/

@[simp] theorem size_nil : size [] = 0 := rfl

@[simp] theorem size_cons (c : Char) (l : List Char) : size (c :: l) = c.utf8Size + size l := by
  simp [size]

@[simp] theorem size_append (l r : List Char) : size (l ++ r) = size l + size r := by
  simp [size]

@[simp] theorem bytes_nil : bytes [] = [] := rfl

@[simp] theorem bytes_cons (c : Char) (l : List Char) :
    bytes (c :: l) = String.utf8EncodeChar c ++ bytes l := rfl

@[simp] theorem bytes_append (l r : List Char) : bytes (l ++ r) = bytes l ++ bytes r :=
  List.flatMap_append

@[simp] theorem length_bytes (l : List Char) : (bytes l).length = size l := by
  induction l with
  | nil => rfl
  | cons c l ih => rw [bytes_cons, List.length_append, String.length_utf8EncodeChar, ih, size_cons]

theorem size_eq_zero {l : List Char} : size l = 0 ↔ l = [] := by
  cases l with
  | nil => simp
  | cons c l =>
    have := c.utf8Size_pos
    simp
    omega

/-! ## Cutting at an offset

Everything is reduced to one equation: an offset splits a text when it is the size of a front of
it. -/

theorem splitAt_eq_some {l a b : List Char} {n : ℕ} :
    splitAt l n = some (a, b) ↔ l = a ++ b ∧ size a = n := by
  induction l, n using splitAt.induct generalizing a b with
  | case1 l =>
    rw [splitAt]
    constructor
    · intro h
      obtain ⟨rfl, rfl⟩ := Prod.mk.inj (Option.some.inj h)
      exact ⟨rfl, rfl⟩
    · rintro ⟨rfl, h⟩
      rw [size_eq_zero.mp h, List.nil_append]
  | case2 n =>
    rw [splitAt]
    refine ⟨fun h ↦ (Option.some_ne_none _ h.symm).elim, fun ⟨h, hn⟩ ↦ ?_⟩
    rw [(List.append_eq_nil_iff.mp h.symm).1, size_nil] at hn
    omega
  | case3 c l n hle ih =>
    rw [splitAt, if_pos hle, Option.map_eq_some_iff]
    constructor
    · rintro ⟨⟨a', b'⟩, h, heq⟩
      obtain ⟨rfl, rfl⟩ := Prod.mk.inj heq
      obtain ⟨rfl, hn⟩ := ih.mp h
      refine ⟨rfl, ?_⟩
      rw [size_cons, hn]
      omega
    · rintro ⟨h, hn⟩
      cases a with
      | nil => simp at hn
      | cons d a =>
        obtain ⟨rfl, rfl⟩ := List.cons.inj h
        rw [size_cons] at hn
        exact ⟨(a, b), ih.mpr ⟨rfl, by omega⟩, rfl⟩
  | case4 c l n hlt =>
    rw [splitAt, if_neg hlt]
    refine ⟨fun h ↦ (Option.some_ne_none _ h.symm).elim, fun ⟨h, hn⟩ ↦ ?_⟩
    cases a with
    | nil => simp at hn
    | cons d a =>
      obtain ⟨rfl, -⟩ := List.cons.inj h
      rw [size_cons] at hn
      omega

@[simp] theorem splitAt_append (a b : List Char) : splitAt (a ++ b) (size a) = some (a, b) :=
  splitAt_eq_some.mpr ⟨rfl, rfl⟩

@[simp] theorem drop_append (a b : List Char) : drop (a ++ b) (size a) = some b := by
  rw [drop, splitAt_append]
  rfl

theorem drop_eq_some {l r : List Char} {i : ℕ} :
    drop l i = some r ↔ ∃ a, l = a ++ r ∧ size a = i := by
  rw [drop, Option.map_eq_some_iff]
  constructor
  · rintro ⟨⟨a, b⟩, h, rfl⟩
    exact ⟨a, splitAt_eq_some.mp h⟩
  · rintro ⟨a, h⟩
    exact ⟨(a, r), splitAt_eq_some.mpr h, rfl⟩

theorem slice_eq_some {l m : List Char} {i j : ℕ} :
    slice l i j = some m ↔ ∃ a b, l = a ++ m ++ b ∧ size a = i ∧ size a + size m = j := by
  rw [slice]
  constructor
  · intro h
    split at h
    case isFalse => cases h
    case isTrue hle =>
      obtain ⟨r, hr, hm⟩ := Option.bind_eq_some_iff.mp h
      obtain ⟨⟨m', b⟩, hsplit, rfl⟩ := Option.map_eq_some_iff.mp hm
      obtain ⟨a, rfl, ha⟩ := drop_eq_some.mp hr
      obtain ⟨rfl, hsize⟩ := splitAt_eq_some.mp hsplit
      refine ⟨a, b, (List.append_assoc ..).symm, ha, ?_⟩
      rw [ha, hsize]
      omega
  · rintro ⟨a, b, rfl, rfl, rfl⟩
    rw [if_pos (by omega), List.append_assoc, drop_append, Option.bind_some,
      Nat.add_sub_cancel_left, splitAt_append]
    rfl

/-! ## Bytes and characters -/

theorem utf8EncodeChar_ascii {c : Char} (h : c.val.toNat ≤ 0x7f) :
    String.utf8EncodeChar c = [UInt8.ofNat c.val.toNat] := by
  rw [String.utf8EncodeChar]
  exact if_pos h

theorem utf8Size_ascii {c : Char} (h : c.val.toNat ≤ 0x7f) : c.utf8Size = 1 := by
  rw [← String.length_utf8EncodeChar, utf8EncodeChar_ascii h]
  rfl

theorem le_of_mem_utf8EncodeChar {c : Char} (h : ¬ c.val.toNat ≤ 0x7f) {b : UInt8}
    (hb : b ∈ String.utf8EncodeChar c) : 0x80 ≤ b.toNat := by
  rw [String.utf8EncodeChar] at hb
  simp only [if_neg h] at hb
  split_ifs at hb <;> simp only [List.mem_cons, List.not_mem_nil, or_false] at hb <;>
    rcases hb with rfl | hb <;> (try rcases hb with rfl | hb) <;>
    (try rcases hb with rfl | rfl) <;> rw [UInt8.toNat_ofNat'] <;> omega

/-! ## Prefixes -/

/-- The encoding of a character is not the beginning of another one's. -/
theorem encode_append_inj {c d : Char} {x y : Bytes}
    (h : String.utf8EncodeChar c ++ x = String.utf8EncodeChar d ++ y) : c = d ∧ x = y := by
  have hc := @ByteArray.utf8DecodeChar?_utf8EncodeChar_append x.toByteArray c
  have hd := @ByteArray.utf8DecodeChar?_utf8EncodeChar_append y.toByteArray d
  rw [← List.toByteArray_append] at hc hd
  rw [h, hd] at hc
  obtain rfl := Option.some.inj hc
  exact ⟨rfl, List.append_cancel_left h⟩

/-- Encodings begin one another exactly when the texts do. -/
theorem bytes_prefix_iff {l r : List Char} : bytes l <+: bytes r ↔ l <+: r := by
  constructor
  · intro h
    induction l generalizing r with
    | nil => exact List.nil_prefix
    | cons c l ih =>
      obtain ⟨x, hx⟩ := h
      cases r with
      | nil =>
        have hlen := congrArg List.length hx
        simp only [bytes_cons, bytes_nil, List.length_append,
          String.length_utf8EncodeChar, List.length_nil] at hlen
        have := c.utf8Size_pos
        omega
      | cons d r =>
        rw [bytes_cons, bytes_cons, List.append_assoc] at hx
        obtain ⟨rfl, hrest⟩ := encode_append_inj hx
        exact List.prefix_cons_inj c |>.mpr (ih ⟨x, hrest⟩)
  · rintro ⟨x, rfl⟩
    rw [bytes_append]
    exact List.prefix_append _ _

/-! ## Searching -/

theorem find_getD (p : Char → Bool) (l : List Char) :
    (find p l).getD (size l) = size (l.takeWhile fun c ↦ !p c) := by
  induction l with
  | nil => rfl
  | cons c l ih =>
    rw [find, List.takeWhile_cons]
    by_cases hc : p c
    · rw [if_pos hc, if_neg (by simp [hc])]
      rfl
    · rw [if_neg hc, if_pos (by simp [hc]), size_cons, size_cons, ← ih]
      cases find p l <;> rfl

theorem exists_of_findText {pat l : List Char} {n : ℕ} (h : findText pat l = some n) :
    ∃ a r, l = a ++ pat ++ r ∧ size a = n := by
  induction l generalizing n with
  | nil =>
    rw [findText] at h
    split at h
    case isTrue hpat =>
      obtain rfl := Option.some.inj h
      exact ⟨[], [], by simp [hpat], rfl⟩
    case isFalse => cases h
  | cons c l ih =>
    rw [findText] at h
    split at h
    case isTrue hpre =>
      obtain ⟨r, hr⟩ := List.isPrefixOf_iff_prefix.mp hpre
      obtain rfl := Option.some.inj h
      exact ⟨[], r, by simp [hr], rfl⟩
    case isFalse =>
      obtain ⟨m, hm, rfl⟩ := Option.map_eq_some_iff.mp h
      obtain ⟨a, r, rfl, rfl⟩ := ih hm
      exact ⟨c :: a, r, rfl, size_cons c a⟩

/-! ## The byte at an offset -/

/-- The first byte of a character's encoding. -/
def firstByte (c : Char) : UInt8 := (String.utf8EncodeChar c).headD 0

theorem firstByte_ascii {c : Char} (h : c.val.toNat ≤ 0x7f) :
    firstByte c = UInt8.ofNat c.val.toNat := by
  rw [firstByte, utf8EncodeChar_ascii h]
  rfl

theorem utf8EncodeChar_eq_cons (c : Char) : ∃ l, String.utf8EncodeChar c = firstByte c :: l := by
  cases h : String.utf8EncodeChar c with
  | nil =>
    have hlen := congrArg List.length h
    have := c.utf8Size_pos
    rw [String.length_utf8EncodeChar, List.length_nil] at hlen
    omega
  | cons b l => exact ⟨l, by rw [firstByte, h]; rfl⟩

/-- The byte is an ASCII one exactly when the character is. -/
theorem firstByte_lt_iff {c : Char} : (firstByte c).toNat < 0x80 ↔ c.val.toNat ≤ 0x7f := by
  constructor
  · intro h
    by_contra hc
    obtain ⟨l, hl⟩ := utf8EncodeChar_eq_cons c
    have := le_of_mem_utf8EncodeChar hc (hl ▸ List.mem_cons_self)
    omega
  · intro h
    rw [firstByte_ascii h, UInt8.toNat_ofNat']
    omega

theorem utf8Size_of_firstByte {c : Char} (h : (firstByte c).toNat < 0x80) : c.utf8Size = 1 :=
  utf8Size_ascii (firstByte_lt_iff.mp h)

/-- An ASCII character is known by its byte. -/
theorem firstByte_eq_iff {c d : Char} (hd : d.val.toNat ≤ 0x7f) :
    firstByte c = firstByte d ↔ c = d := by
  refine ⟨fun h ↦ ?_, fun h ↦ h ▸ rfl⟩
  have hc : c.val.toNat ≤ 0x7f := firstByte_lt_iff.mp (h ▸ firstByte_lt_iff.mpr hd)
  rw [firstByte_ascii hc, firstByte_ascii hd] at h
  have hval := congrArg UInt8.toNat h
  rw [UInt8.toNat_ofNat', UInt8.toNat_ofNat', Nat.mod_eq_of_lt (by omega),
    Nat.mod_eq_of_lt (by omega)] at hval
  exact Char.ext (UInt32.toNat_inj.mp hval)

theorem drop_bytes_append (a r : List Char) : (bytes (a ++ r)).drop (size a) = bytes r := by
  rw [bytes_append, List.drop_append_of_le_length (length_bytes a).ge, ← length_bytes a,
    List.drop_length, List.nil_append]

/-- The byte before a text is that of its first character. -/
theorem getElem?_bytes (a r : List Char) :
    (bytes (a ++ r))[size a]? = r.head?.map firstByte := by
  rw [bytes_append, List.getElem?_append_right (length_bytes a).le, length_bytes, Nat.sub_self]
  cases r with
  | nil => rfl
  | cons c r =>
    obtain ⟨l, hl⟩ := utf8EncodeChar_eq_cons c
    rw [bytes_cons, hl]
    rfl

/-- The byte after an ASCII character. -/
theorem getElem?_bytes_succ (a : List Char) {c : Char} (hc : (firstByte c).toNat < 0x80)
    (r : List Char) : (bytes (a ++ c :: r))[size a + 1]? = r.head?.map firstByte := by
  have h := getElem?_bytes (a ++ [c]) r
  rwa [size_append, size_cons, size_nil, utf8Size_of_firstByte hc, List.append_assoc] at h

/-- A run of ASCII bytes is one of characters. -/
theorem length_takeWhile_bytes {p : UInt8 → Bool} (hp : ∀ b, p b = true → b.toNat < 0x80)
    (r : List Char) :
    ((bytes r).takeWhile p).length = size (r.takeWhile fun c ↦ p (firstByte c)) := by
  induction r with
  | nil => rfl
  | cons c r ih =>
    obtain ⟨l, hl⟩ := utf8EncodeChar_eq_cons c
    rw [List.takeWhile_cons, bytes_cons, hl, List.cons_append, List.takeWhile_cons]
    by_cases hc : p (firstByte c) = true
    · have hsize := utf8Size_of_firstByte (hp _ hc)
      have hlen := String.length_utf8EncodeChar c
      rw [hl, hsize, List.length_cons] at hlen
      obtain rfl : l = [] := List.eq_nil_of_length_eq_zero (by omega)
      rw [if_pos hc, if_pos hc, List.nil_append, List.length_cons, ih, size_cons, hsize]
      omega
    · rw [if_neg hc, if_neg hc]
      rfl

end Utf8
