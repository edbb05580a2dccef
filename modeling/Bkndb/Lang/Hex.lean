import Bkndb.Basic.Digits
import Bkndb.Basic.Utf8
import Bkndb.Core.Error

/-!
# Hex literals

The bytes of an `x'..'` literal (`lang/lexer.rs`) and of a UUID (`lang/time.rs`). Both check the
length in bytes, then take the text two bytes at a time and read each pair with the integer parser,
which accepts a `+` in front of a digit; a pair that ends inside a character is a panic.

`afterPairs` is what remains of a text when the pairs the parser accepts are taken off, and tells
the outcome apart: nothing remains, or the next pair is refused, or it cannot be taken.

## What is wrong with pairs

The integer parser of the standard library takes a sign, so `+a` is a byte; and a pair of bytes
need not be a pair of characters, so taking it may panic. The condition in `decoders_right_iff`
names both: a text on which the decoder is right consists of digits, or is refused at a pair that
ends between two characters, unless its length alone decides.

## Text and bytes

The decoders count bytes, and the model keeps texts as characters. A text of accepted pairs is
ASCII, so up to the first pair that is refused the two counts agree, and `afterPairs` can take
characters off.
-/

/-- `&s[i..j]`: a slice that begins or ends inside a character panics. -/
def sliceText (s : List Char) (i j : ℕ) : Except BknError (List Char) :=
  .ofOption (.panic "byte index is not a char boundary") (Utf8.slice s i j)

/-- `&s[i..]`. -/
def sliceFrom (s : List Char) (i : ℕ) : Except BknError (List Char) :=
  .ofOption (.panic "byte index is not a char boundary") (Utf8.drop s i)

namespace Hex

/-- `u8::from_str_radix(s, 16)`. -/
def byte (s : List Char) : Option UInt8 := (Digits.parseUnsigned 16 256 s).map UInt8.ofNat

/-- The bytes of the pairs at the given offsets, up to the first that is refused. -/
def pairsAt (s : List Char) : List ℕ → Except BknError (Option Bytes)
  | [] => .ok (some [])
  | i :: offsets => do
    match byte (← sliceText s i (i + 2)) with
    | none => return none
    | some b => return (← pairsAt s offsets).map (b :: ·)

/-- The content of an `x'..'` literal. -/
def decodeHex (s : List Char) : Except BknError (Option Bytes) :=
  if Utf8.size s % 2 ≠ 0 then .ok none
  else pairsAt s (List.range' 0 (Utf8.size s / 2) 2)

/-- A UUID's digits: without the blanks and braces around them, and without hyphens. -/
def uuidDigits (text : List Char) : List Char :=
  (((trim text).dropWhile (· == '{')).rdropWhile (· == '}')).filter (· != '-')

/-- Bytes written over sixteen zeros. -/
def fill (b : Bytes) : Vector UInt8 16 := Vector.ofFn fun i ↦ b.getD i 0

/-- A UUID in its hex form, with or without hyphens and surrounding braces. -/
def parseUuid (text : List Char) : Except BknError (Option (Vector UInt8 16)) :=
  let hex := uuidDigits text
  if Utf8.size hex ≠ 32 then .ok none
  else (pairsAt hex (List.range' 0 16 2)).map (Option.map fill)

/-! ## Pairs

Whether a pair is accepted depends on its two characters alone. What is left after the accepted
ones decides the outcome. -/

/-- An ASCII hexadecimal digit. -/
def IsDigit (c : Char) : Prop := (Digits.value 16 c).isSome

instance (c : Char) : Decidable (IsDigit c) := inferInstanceAs (Decidable (_ = true))

/-- The value of a digit; a sign counts for nothing. -/
def digit (c : Char) : ℕ := (Digits.value 16 c).getD 0

/-- The bytes that pairs of digits spell. -/
def value : List Char → Bytes
  | c :: d :: l => UInt8.ofNat (16 * digit c + digit d) :: value l
  | _ => []

/-- A pair of characters that the integer parser accepts. -/
def Accepted (c d : Char) : Prop := (IsDigit c ∨ c = '+') ∧ IsDigit d

instance (c d : Char) : Decidable (Accepted c d) := inferInstanceAs (Decidable (_ ∧ _))

/-- What is left of a text when the accepted pairs at its front are taken off. -/
def afterPairs : List Char → List Char
  | c :: d :: l => if Accepted c d then afterPairs l else c :: d :: l
  | l => l

/-- The second byte of the text is the last of a character. -/
def PairFits (l : List Char) : Prop := (Utf8.drop l 2).isSome

instance (l : List Char) : Decidable (PairFits l) := inferInstanceAs (Decidable (_ = true))

theorem toNat_of_isDigit {c : Char} (h : IsDigit c) : c.toNat ≤ 122 := by
  obtain ⟨d, hd⟩ := Option.isSome_iff_exists.mp h
  exact (Digits.toNat_of_value hd).2

theorem utf8Size_of_isDigit {c : Char} (h : IsDigit c) : c.utf8Size = 1 :=
  Utf8.utf8Size_ascii ((toNat_of_isDigit h).trans (by decide))

theorem value_of_isDigit {c : Char} (h : IsDigit c) :
    Digits.value 16 c = some (digit c) ∧ digit c < 16 := by
  obtain ⟨d, hd⟩ := Option.isSome_iff_exists.mp h
  rw [digit, hd]
  exact ⟨rfl, Digits.value_lt hd⟩

theorem value_of_not_isDigit {c : Char} (h : ¬ IsDigit c) : Digits.value 16 c = none :=
  Option.not_isSome_iff_eq_none.mp h

theorem digit_plus : digit '+' = 0 := by decide

theorem byte_of_ne_plus {l : List Char} (h : l.head? ≠ some '+') :
    byte l = ((Digits.ofChars 16 l).filter (· < 256)).map UInt8.ofNat := by
  rw [byte, Digits.parseUnsigned]
  rintro l rfl
  exact h rfl

/-- The integer parser on a pair of characters. -/
theorem byte_pair (c d : Char) :
    byte [c, d] = if Accepted c d then some (UInt8.ofNat (16 * digit c + digit d)) else none := by
  by_cases hplus : c = '+'
  · subst hplus
    change ((Digits.ofChars 16 [d]).filter (· < 256)).map UInt8.ofNat = _
    rw [Digits.ofChars, if_neg (List.cons_ne_nil d []), Digits.accumulate, digit_plus]
    by_cases hd : IsDigit d
    · obtain ⟨hv, hlt⟩ := value_of_isDigit hd
      rw [if_pos ⟨.inr rfl, hd⟩, hv, Option.bind_some, Digits.accumulate, Option.filter_some_pos]
      · rfl
      · simp; omega
    · rw [if_neg fun h ↦ hd h.2, value_of_not_isDigit hd]
      rfl
  · rw [byte_of_ne_plus (by simpa using hplus), Digits.ofChars, if_neg (List.cons_ne_nil c [d]),
      Digits.accumulate]
    by_cases hc : IsDigit c
    · obtain ⟨hvc, hltc⟩ := value_of_isDigit hc
      rw [hvc, Option.bind_some, Digits.accumulate]
      by_cases hd : IsDigit d
      · obtain ⟨hvd, hltd⟩ := value_of_isDigit hd
        rw [if_pos ⟨.inl hc, hd⟩, hvd, Option.bind_some, Digits.accumulate, Option.filter_some_pos]
        · simp
        · simp; omega
      · rw [if_neg fun h ↦ hd h.2, value_of_not_isDigit hd]
        rfl
    · rw [if_neg fun h ↦ h.1.elim hc hplus, value_of_not_isDigit hc]
      rfl

theorem byte_singleton {c : Char} (h : c.utf8Size ≠ 1) : byte [c] = none := by
  have hplus : c ≠ '+' := fun hc ↦ h (hc ▸ rfl)
  have hdigit : ¬ IsDigit c := fun hc ↦ h (utf8Size_of_isDigit hc)
  rw [byte_of_ne_plus (by simpa using hplus), Digits.ofChars, if_neg (List.cons_ne_nil c []),
    Digits.accumulate, value_of_not_isDigit hdigit]
  rfl

theorem Accepted.utf8Size {c d : Char} (h : Accepted c d) : c.utf8Size = 1 ∧ d.utf8Size = 1 := by
  refine ⟨?_, utf8Size_of_isDigit h.2⟩
  rcases h.1 with hc | rfl
  · exact utf8Size_of_isDigit hc
  · rfl

/-- Taking a pair from a text: the characters it is made of, or none. -/
theorem slice_pair (a r : List Char) :
    Utf8.slice (a ++ r) (Utf8.size a) (Utf8.size a + 2) = (Utf8.splitAt r 2).map Prod.fst := by
  rw [Utf8.slice, if_pos (by omega), Utf8.drop_append, Option.bind_some, Nat.add_sub_cancel_left]

theorem splitAt_two_cons {c : Char} {l : List Char} :
    Utf8.splitAt (c :: l) 2 = if c.utf8Size = 1 then (Utf8.splitAt l 1).map fun p ↦ (c :: p.1, p.2)
      else if c.utf8Size = 2 then some ([c], l) else none := by
  rw [Utf8.splitAt]
  rcases c.utf8Size_eq with h | h | h | h <;> simp [h, Utf8.splitAt]

theorem splitAt_one_cons {c : Char} {l : List Char} :
    Utf8.splitAt (c :: l) 1 = if c.utf8Size = 1 then some ([c], l) else none := by
  rw [Utf8.splitAt]
  rcases c.utf8Size_eq with h | h | h | h <;> simp [h, Utf8.splitAt]

/-- A text that no accepted pair begins. -/
def Refused (l : List Char) : Prop := ∀ c d r, l = c :: d :: r → ¬ Accepted c d

theorem byte_of_splitAt {l a b : List Char} (h : Utf8.splitAt l 2 = some (a, b)) (hl : Refused l) :
    byte a = none := by
  cases l with
  | nil => cases h
  | cons c l =>
    rw [splitAt_two_cons] at h
    split_ifs at h with h1 h2
    · obtain ⟨⟨a', b'⟩, hsplit, heq⟩ := Option.map_eq_some_iff.mp h
      obtain ⟨rfl, rfl⟩ := Prod.mk.inj heq
      cases l with
      | nil => cases hsplit
      | cons d l =>
        rw [splitAt_one_cons] at hsplit
        split_ifs at hsplit with hd
        obtain ⟨rfl, rfl⟩ := Prod.mk.inj (Option.some.inj hsplit)
        rw [byte_pair, if_neg (hl c d l rfl)]
    · obtain ⟨rfl, -⟩ := Prod.mk.inj (Option.some.inj h)
      exact byte_singleton h1

/-- The outcome of the pairs of a text, told by what is left after the accepted ones. -/
def outcome (r : List Char) : Except BknError (Option Bytes) :=
  if afterPairs r = [] then .ok (some (value r))
  else if PairFits (afterPairs r) then .ok none
  else .error (.panic "byte index is not a char boundary")

theorem outcome_accepted {c d : Char} {l : List Char} (h : Accepted c d) :
    outcome (c :: d :: l) =
      (outcome l).map (Option.map (UInt8.ofNat (16 * digit c + digit d) :: ·)) := by
  rw [outcome, outcome, afterPairs, if_pos h, value]
  split_ifs <;> rfl

theorem afterPairs_of_refused {l : List Char} (h : Refused l) : afterPairs l = l := by
  rcases l with _ | ⟨c, _ | ⟨d, l⟩⟩
  · rfl
  · rfl
  · rw [afterPairs, if_neg (h c d l rfl)]

theorem pairsAt_refused {a r : List Char} {n : ℕ} (hr : Refused r) (hne : r ≠ []) :
    pairsAt (a ++ r) (List.range' (Utf8.size a) (n + 1) 2) = outcome r := by
  rw [List.range'_succ, pairsAt, sliceText, slice_pair, outcome, afterPairs_of_refused hr,
    if_neg hne]
  cases hsplit : Utf8.splitAt r 2 with
  | none =>
    rw [if_neg (by simp [PairFits, Utf8.drop, hsplit])]
    rfl
  | some p =>
    rw [if_pos (by simp [PairFits, Utf8.drop, hsplit]), Option.map_some, Except.ofOption,
      Except.ok_bind, byte_of_splitAt hsplit hr]
    rfl

/-- **What the pairs of a text give.** -/
theorem pairsAt_eq (a r : List Char) (n : ℕ) (h : Utf8.size r = 2 * n) :
    pairsAt (a ++ r) (List.range' (Utf8.size a) n 2) = outcome r := by
  induction n generalizing a r with
  | zero =>
    obtain rfl := Utf8.size_eq_zero.mp h
    rfl
  | succ n ih =>
    have hne : r ≠ [] := fun hnil ↦ by rw [hnil, Utf8.size_nil] at h; omega
    by_cases hr : Refused r
    · exact pairsAt_refused hr hne
    simp only [Refused, not_forall, not_not] at hr
    obtain ⟨c, d, l, rfl, hacc⟩ := hr
    obtain ⟨hc, hd⟩ := hacc.utf8Size
    rw [Utf8.size_cons, Utf8.size_cons, hc, hd] at h
    have hsize : Utf8.size (a ++ [c, d]) = Utf8.size a + 2 := by simp [hc, hd]
    have hrest := ih (a ++ [c, d]) l (by omega)
    rw [hsize, List.append_assoc, List.cons_append, List.cons_append, List.nil_append] at hrest
    have hslice : Utf8.slice (a ++ c :: d :: l) (Utf8.size a) (Utf8.size a + 2) = some [c, d] := by
      rw [slice_pair, splitAt_two_cons, if_pos hc, splitAt_one_cons, if_pos hd]
      rfl
    rw [List.range'_succ, pairsAt, sliceText, hslice, Except.ofOption, Except.ok_bind, byte_pair,
      if_pos hacc]
    dsimp only
    rw [hrest, outcome_accepted hacc]
    cases outcome l <;> rfl

/-! ## The decoders

Both decoders check a length first. A text that the length rules out is refused without a look at
its pairs. -/

/-- A text of pairs of hexadecimal digits. -/
def IsText (s : List Char) : Prop := s.length % 2 = 0 ∧ ∀ c ∈ s, IsDigit c

instance (s : List Char) : Decidable (IsText s) :=
  @instDecidableAnd _ _ _ (List.decidableBAll _ s)

/-- What a decoder owes on a text: no panic, and the bytes of the text exactly when it consists of
pairs of digits. -/
structure Right (s : List Char) (r : Except BknError (Option Bytes)) : Prop where
  returns : ∃ o, r = .ok o
  value : ∀ b, r = .ok (some b) ↔ IsText s ∧ b = Hex.value s

/-- The text is one of digits, or the first pair that the integer parser refuses ends between two
characters. -/
def Clear (s : List Char) : Prop := IsText s ∨ (afterPairs s ≠ [] ∧ PairFits (afterPairs s))

instance (s : List Char) : Decidable (Clear s) := inferInstanceAs (Decidable (_ ∨ _))

theorem size_of_digits {s : List Char} (h : ∀ c ∈ s, IsDigit c) : Utf8.size s = s.length := by
  induction s with
  | nil => rfl
  | cons c s ih =>
    rw [Utf8.size_cons, utf8Size_of_isDigit (h c List.mem_cons_self),
      ih fun d hd ↦ h d (List.mem_cons_of_mem c hd), List.length_cons, add_comm]

theorem afterPairs_of_isText {s : List Char} (h : IsText s) : afterPairs s = [] := by
  induction s using afterPairs.induct with
  | case1 c d l hacc ih =>
    rw [afterPairs, if_pos hacc]
    refine ih ⟨?_, fun x hx ↦ h.2 x (by simp [hx])⟩
    have := h.1
    simp only [List.length_cons] at this
    omega
  | case2 c d l hacc =>
    exact absurd ⟨.inl (h.2 c (by simp)), h.2 d (by simp)⟩ hacc
  | case3 l hl =>
    rcases l with _ | ⟨c, _ | ⟨d, l⟩⟩
    · rfl
    · simpa using h.1
    · exact absurd rfl (hl c d l)

theorem right_outcome_iff (s : List Char) : Right s (outcome s) ↔ Clear s := by
  by_cases hs : IsText s
  · refine iff_of_true ⟨⟨_, if_pos (afterPairs_of_isText hs)⟩, fun b ↦ ?_⟩ (.inl hs)
    rw [outcome, if_pos (afterPairs_of_isText hs), Except.ok.injEq, Option.some.injEq]
    simp [hs, eq_comm]
  · rw [Clear, or_iff_right hs]
    constructor
    · intro h
      refine ⟨fun hnil ↦ ?_, ?_⟩
      · exact hs ((h.value (value s)).mp (if_pos hnil)).1
      · by_contra hfits
        obtain ⟨o, ho⟩ := h.returns
        rw [outcome] at ho
        split_ifs at ho with hnil
        exact hs ((h.value (value s)).mp (if_pos hnil)).1
    · rintro ⟨hne, hfits⟩
      have hout : outcome s = .ok none := by rw [outcome, if_neg hne, if_pos hfits]
      refine ⟨⟨none, hout⟩, fun b ↦ ?_⟩
      rw [hout]
      simp [hs]

theorem right_none {s : List Char} (h : ¬ IsText s) : Right s (.ok none) :=
  ⟨⟨none, rfl⟩, fun b ↦ by simp [h]⟩

theorem decodeHex_eq {s : List Char} (h : Utf8.size s % 2 = 0) : decodeHex s = outcome s := by
  rw [decodeHex, if_neg (by simpa using h)]
  exact pairsAt_eq [] s (Utf8.size s / 2) (by omega)

/-- The first pair of a text that the integer parser refuses ends inside a character. -/
def Torn (s : List Char) : Prop :=
  Utf8.size s % 2 = 0 ∧ afterPairs s ≠ [] ∧ ¬ PairFits (afterPairs s)

theorem decodeHex_eq_error {s : List Char} {e : BknError} :
    decodeHex s = .error e ↔ Torn s ∧ e = .panic "byte index is not a char boundary" := by
  by_cases h : Utf8.size s % 2 = 0
  · rw [decodeHex_eq h, outcome, Torn, and_iff_right h]
    split_ifs with hnil hfits <;> simp_all [eq_comm]
  · rw [decodeHex, if_pos h, Torn]
    simp [h]

theorem right_decodeHex_iff (s : List Char) :
    Right s (decodeHex s) ↔ Utf8.size s % 2 = 1 ∨ Clear s := by
  rcases Nat.mod_two_eq_zero_or_one (Utf8.size s) with h | h
  · rw [decodeHex_eq h, right_outcome_iff]
    simp [h]
  · have hs : ¬ IsText s := fun hs ↦ by
      have := hs.1
      rw [← size_of_digits hs.2] at this
      omega
    rw [decodeHex, if_pos (by omega)]
    simp [right_none hs, h]

/-! ## UUIDs -/

/-- Sixteen pairs of digits. -/
def IsUuid (s : List Char) : Prop := s.length = 32 ∧ ∀ c ∈ s, IsDigit c

instance (s : List Char) : Decidable (IsUuid s) :=
  @instDecidableAnd _ _ _ (List.decidableBAll _ s)

/-- What the decoder of UUIDs owes on a text: no panic, and the sixteen bytes of its digits exactly
when there are thirty-two of them and nothing else. -/
structure UuidRight (text : List Char) : Prop where
  returns : ∃ o, parseUuid text = .ok o
  value : ∀ u, parseUuid text = .ok (some u) ↔
    IsUuid (uuidDigits text) ∧ u.toList = Hex.value (uuidDigits text)

theorem length_value (s : List Char) : (value s).length = s.length / 2 := by
  induction s using value.induct with
  | case1 c d l ih =>
    rw [value, List.length_cons, ih, List.length_cons, List.length_cons]
    omega
  | case2 l hl =>
    rcases l with _ | ⟨c, _ | ⟨d, l⟩⟩
    · rfl
    · simp [value]
    · exact absurd rfl (hl c d l)

theorem toList_fill {b : Bytes} (h : b.length = 16) : (fill b).toList = b := by
  rw [fill, Vector.toList_ofFn]
  refine List.ext_getElem (by rw [List.length_ofFn, h]) fun i hi hb ↦ ?_
  rw [List.getElem_ofFn, List.getD_eq_getElem?_getD, List.getElem?_eq_getElem hb, Option.getD_some]

theorem isText_of_isUuid {s : List Char} (h : IsUuid s) : IsText s := ⟨by rw [h.1], h.2⟩

theorem isUuid_of_isText {s : List Char} (h : IsText s) (hsize : Utf8.size s = 32) : IsUuid s :=
  ⟨by rw [← size_of_digits h.2, hsize], h.2⟩

theorem parseUuid_eq {text : List Char} (h : Utf8.size (uuidDigits text) = 32) :
    parseUuid text = (outcome (uuidDigits text)).map (Option.map fill) := by
  have hpairs := pairsAt_eq [] (uuidDigits text) 16 (by omega)
  rw [List.nil_append, Utf8.size_nil] at hpairs
  rw [parseUuid, if_neg (not_not.mpr h), hpairs]

theorem uuidRight_iff (text : List Char) :
    UuidRight text ↔ Utf8.size (uuidDigits text) ≠ 32 ∨ Clear (uuidDigits text) := by
  by_cases h : Utf8.size (uuidDigits text) = 32
  · have hiff : ∀ {u}, parseUuid text = .ok (some u) → UuidRight text → IsText (uuidDigits text) :=
      fun hu hright ↦ isText_of_isUuid ((hright.value _).mp hu).1
    have hparse := parseUuid_eq h
    rw [or_iff_right (not_not.mpr h)]
    by_cases hs : IsText (uuidDigits text)
    · rw [outcome, if_pos (afterPairs_of_isText hs)] at hparse
      have hu := isUuid_of_isText hs h
      have hlen : (value (uuidDigits text)).length = 16 := by rw [length_value, hu.1]
      refine iff_of_true ⟨⟨_, hparse⟩, fun u ↦ ?_⟩ (.inl hs)
      rw [hparse, and_iff_right hu, ← toList_fill hlen, Vector.toList_inj, toList_fill hlen]
      exact ⟨fun heq ↦ (Option.some.inj (Except.ok.inj heq)).symm, fun heq ↦ heq ▸ rfl⟩
    · rw [Clear, or_iff_right hs]
      constructor
      · intro hright
        rw [outcome] at hparse
        split_ifs at hparse with hnil hfits
        · exact absurd (hiff hparse hright) hs
        · exact ⟨hnil, hfits⟩
        · obtain ⟨o, ho⟩ := hright.returns
          rw [hparse] at ho
          cases ho
      · rintro ⟨hne, hfits⟩
        rw [outcome, if_neg hne, if_pos hfits] at hparse
        refine ⟨⟨none, hparse⟩, fun u ↦ ?_⟩
        rw [hparse]
        have hnot : ¬ IsUuid (uuidDigits text) := fun hu ↦ hs (isText_of_isUuid hu)
        simp [hnot, Except.map]
  · have hnot : ¬ IsUuid (uuidDigits text) := fun hu ↦ h (by rw [size_of_digits hu.2, hu.1])
    have hnone : parseUuid text = .ok none := by rw [parseUuid, if_pos h]
    refine iff_of_true ⟨⟨none, hnone⟩, fun u ↦ ?_⟩ (.inl h)
    rw [hnone]
    simp [hnot]

/-! ## Rendering -/

/-- A hexadecimal digit, in either case. -/
def digitText (upper : Bool) (d : ℕ) : Char :=
  if upper then d.digitChar.toUpper else d.digitChar

/-- The hex rendering of bytes, in either case. -/
def render (upper : Bool) (b : Bytes) : List Char :=
  b.flatMap fun x ↦ [digitText upper (x.toNat / 16), digitText upper (x.toNat % 16)]

theorem value_digitText (upper : Bool) {d : ℕ} (h : d < 16) :
    Digits.value 16 (digitText upper d) = some d := by
  have hall : ∀ upper, ∀ d < 16, Digits.value 16 (digitText upper d) = some d := by decide
  exact hall upper d h

theorem isText_render (upper : Bool) (b : Bytes) : IsText (render upper b) := by
  induction b with
  | nil => exact ⟨rfl, by simp [render]⟩
  | cons x b ih =>
    have hx := x.toNat_lt
    have hdigit : ∀ d < 16, IsDigit (digitText upper d) := fun d hd ↦ by
      rw [IsDigit, value_digitText upper hd]
      rfl
    refine ⟨?_, ?_⟩
    · have := ih.1
      simp only [render, List.flatMap_cons, List.length_append, List.length_cons,
        List.length_nil] at this ⊢
      omega
    · simp only [render, List.flatMap_cons, List.cons_append, List.nil_append,
        List.forall_mem_cons]
      exact ⟨hdigit _ (by omega), hdigit _ (by omega), ih.2⟩

theorem value_render (upper : Bool) (b : Bytes) : value (render upper b) = b := by
  induction b with
  | nil => rfl
  | cons x b ih =>
    have hx := x.toNat_lt
    have hdigit : ∀ d < 16, digit (digitText upper d) = d := fun d hd ↦ by
      rw [digit, value_digitText upper hd]
      rfl
    have hcons : render upper (x :: b) =
        digitText upper (x.toNat / 16) :: digitText upper (x.toNat % 16) :: render upper b := rfl
    rw [hcons, value, ih, hdigit _ (by omega), hdigit _ (by omega), Nat.div_add_mod,
      UInt8.ofNat_toNat]

theorem decodeHex_of_isText {s : List Char} (h : IsText s) : decodeHex s = .ok (some (value s)) := by
  rw [decodeHex_eq (by rw [size_of_digits h.2]; exact h.1), outcome, if_pos (afterPairs_of_isText h)]

/-- **Hex literals**: a decoder is right exactly when a text is one of pairs of digits, or the first
pair that the integer parser refuses ends between two characters, or the length alone decides; and
what is rendered reads back. -/
theorem decoders_right_iff (s : List Char) (upper : Bool) (b : Bytes) :
    (Right s (decodeHex s) ↔ Utf8.size s % 2 = 1 ∨ Clear s) ∧
      decodeHex (render upper b) = .ok (some b) ∧
      (UuidRight s ↔ Utf8.size (uuidDigits s) ≠ 32 ∨ Clear (uuidDigits s)) := by
  refine ⟨right_decodeHex_iff s, ?_, uuidRight_iff s⟩
  rw [decodeHex_of_isText (isText_render upper b), value_render]

/-- A sign in front of a digit is taken for a digit, and a pair can end inside a character. -/
theorem not_right :
    ¬ Right "+f".toList (decodeHex "+f".toList) ∧ ¬ Right "aé1".toList (decodeHex "aé1".toList) ∧
      ¬ UuidRight "+0112233445566778899aabbccddeeff".toList := by
  rw [right_decodeHex_iff, right_decodeHex_iff, uuidRight_iff]
  decide

end Hex
