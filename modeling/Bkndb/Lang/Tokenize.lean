import Bkndb.Lang.Lexeme

/-!
# The run of the tokenizer

The offsets of the tokenizer's loop always lie between two characters, and the loop comes to an end
unless it gets stuck. There are two ways to: at a character outside ASCII that is neither a letter
nor a digit, which is read as an empty word again and again, and at a bytes literal whose content
breaks off inside a character, which is a panic (`tokenize_terminates_iff`).

## Why a condition is needed

A loop over the bytes of a source ends because every iteration moves on. Here one does not: a
character outside ASCII that is no letter or digit begins a word, the word is empty, and the loop
is at the same offset again. The condition is about the texts that the loop really comes to, since
such a character inside a string or a comment does no harm.

## Main results

* `advances_lexeme`: an iteration moves on unless it is stuck.
* `tokenize_terminates_iff`: the run ends exactly when it never comes to a text it is stuck at.
-/

namespace Lexer

open Utf8 (bytes size firstByte)

/-! ## Progress

What is left after a lexeme is a proper end of the text, branch by branch. The one exception is the
empty word. -/

/-- A character outside ASCII that is neither a letter nor a digit. -/
def Stray [Unicode] (c : Char) : Prop := 0x7f < c.val.toNat ∧ Unicode.isAlphanumeric c = false

/-- A bytes literal whose content breaks off inside a character. -/
def TornLiteral (c : Char) (l : List Char) : Prop :=
  (c = 'x' ∨ c = 'X') ∧ ∃ l' s r, l = '\'' :: l' ∧ quoted '\'' l' = some (s, r) ∧ Hex.Torn s

/-- The loop cannot go on from a text. -/
def Stuck [Unicode] : List Char → Prop
  | [] => False
  | c :: l => Stray c ∨ TornLiteral c l

/-- What an iteration leaves is shorter than the text, or it is an error. -/
def Advances (l : List Char) : Lexeme → Prop
  | .skip r => r.length ≤ l.length
  | .token _ r => r.length ≤ l.length
  | .refused => True
  | .panics => False

theorem quoted_length {q : Char} {l s r : List Char} (h : quoted q l = some (s, r)) :
    r.length ≤ l.length := by
  obtain ⟨m, rfl⟩ := quoted_append h
  rw [List.length_append]
  omega

theorem length_dropWhile_le (p : Char → Bool) (l : List Char) :
    (l.dropWhile p).length ≤ l.length :=
  (List.dropWhile_suffix p).length_le

theorem advances_quoted {q : Char} (l : List Char) (f : List Char → Tok) :
    Advances l (match quoted q l with
      | some (s, r) => .token (f s) r
      | none => .refused) := by
  rcases h : quoted q l with _ | ⟨s, r⟩
  · trivial
  · exact quoted_length h

theorem advances_number {c : Char} (l : List Char) (hc : isDigit c = true) :
    Advances l (numberLexeme (c :: l)) := by
  have happend := congrArg List.length (number_append (c :: l))
  have hdigits : (number (c :: l)).1 = c :: l.takeWhile isDigit := List.takeWhile_cons_of_pos hc
  simp only [List.length_append, hdigits, List.length_cons] at happend
  have hrest : (number (c :: l)).2.2.2.length ≤ l.length := by omega
  rw [numberLexeme]
  dsimp only
  split_ifs
  · cases Digits.parseInt64 _ with
    | none => trivial
    | some i => exact hrest
  · cases parseF64 _ with
    | none => trivial
    | some x => exact hrest

theorem advances_param (c : Char) (l : List Char) : Advances l (paramLexeme c l) := by
  have hrest := length_dropWhile_le isDigit l
  rw [paramLexeme]
  split_ifs
  · trivial
  · exact hrest
  · cases Digits.parseUnsigned 10 (2 ^ 64) (l.takeWhile isDigit) with
    | none => trivial
    | some n =>
      dsimp only
      split_ifs
      · trivial
      · exact hrest

theorem advances_symbol (c : Char) (l : List Char) :
    Advances l (match symbols.find? fun s ↦ s.toList.isPrefixOf (c :: l) with
      | some s => .token (.sym s) ((c :: l).drop s.toList.length)
      | none => .refused) := by
  cases hfind : symbols.find? fun s ↦ s.toList.isPrefixOf (c :: l) with
  | none => trivial
  | some s =>
    have hpos : ∀ s ∈ symbols, 0 < s.toList.length := by decide
    have hs := hpos s (List.mem_of_find?_eq_some hfind)
    change ((c :: l).drop s.toList.length).length ≤ l.length
    rw [List.length_drop, List.length_cons]
    omega

section

variable [Unicode]

theorem Stray.firstByte_le {c : Char} (h : Stray c) : 0x80 ≤ (firstByte c).toNat := by
  by_contra hlt
  exact absurd (Utf8.firstByte_lt_iff.mp (not_le.mp hlt)) (not_le.mpr h.1)

theorem Stray.isWordChar_eq {c : Char} (h : Stray c) : isWordChar c = false := by
  have hne : c ≠ '_' := fun heq ↦ by
    have := h.1
    rw [heq] at this
    exact absurd this (by decide)
  rw [isWordChar, h.2, Bool.false_or, beq_eq_false_iff_ne]
  exact hne

theorem Stray.lexeme {c : Char} (h : Stray c) (dialect : Dialect) (l : List Char) :
    lexeme dialect (c :: l) = .token (.ident "") (c :: l) := by
  have hascii : ∀ d : Char, d.val.toNat ≤ 0x7f → c ≠ d := fun d hd heq ↦
    absurd h.1 (not_lt.mpr (heq ▸ hd))
  have hblank : ¬ isAsciiWhitespace (firstByte c) = true := fun hb ↦
    absurd (lt_of_isAsciiWhitespace hb) (not_lt.mpr h.firstByte_le)
  have hcomment : ∀ (d : Char) (p : List Char), d.val.toNat ≤ 0x7f →
      ¬ (d :: p).isPrefixOf (c :: l) = true := fun d p hd hp ↦ by
    rw [List.isPrefixOf_cons_cons, Bool.and_eq_true, beq_iff_eq] at hp
    exact hascii d hd hp.1.symm
  have hline : ¬ dialect.lineComment.isPrefixOf (c :: l) = true := by
    cases dialect <;> exact hcomment _ _ (by decide)
  have hblock : ¬ "/*".toList.isPrefixOf (c :: l) = true := hcomment _ _ (by decide)
  have hword : ¬ isWordChar c = true := by simp [h.isWordChar_eq]
  have hhex : ¬ ((c = 'x' ∨ c = 'X') ∧ l.head? = some '\'') := fun hx ↦
    hx.1.elim (hascii 'x' (by decide)) (hascii 'X' (by decide))
  rw [Lexer.lexeme, if_neg hblank, if_neg hline, if_neg hblock, tokenLexeme,
    if_pos (.inr (.inr h.firstByte_le)), if_neg hhex, List.takeWhile_cons_of_neg hword,
    List.dropWhile_cons_of_neg hword]

theorem TornLiteral.lexeme {c : Char} {l : List Char} (h : TornLiteral c l) (dialect : Dialect) :
    lexeme dialect (c :: l) = .panics := by
  obtain ⟨hc, l', s, r, rfl, hs, htorn⟩ := h
  have hbytes : bytesLexeme l' = .panics := by
    rw [bytesLexeme, hs]
    dsimp only
    rw [Hex.decodeHex_eq_error.mpr ⟨htorn, rfl⟩]
  have hline : ¬ dialect.lineComment.isPrefixOf (c :: '\'' :: l') = true := by
    rcases hc with rfl | rfl <;> cases dialect <;> simp [Dialect.lineComment]
  rcases hc with rfl | rfl
  all_goals
    rw [Lexer.lexeme, if_neg (by decide), if_neg hline, if_neg (by simp), tokenLexeme,
      if_pos (.inl (by decide)), if_pos ⟨by simp, rfl⟩]
    exact hbytes

theorem isWordChar_of_isAsciiAlphabetic (hascii : Unicode.AgreesOnAscii) {c : Char}
    (h : isAsciiAlphabetic (firstByte c) = true) : isWordChar c = true := by
  have hlt : (firstByte c).toNat < 0x80 := by
    have h7a : (0x7A : UInt8).toNat = 0x7A := rfl
    have h5a : (0x5A : UInt8).toNat = 0x5A := rfl
    simp only [isAsciiAlphabetic, Bool.or_eq_true, Bool.and_eq_true, decide_eq_true_eq,
      UInt8.le_iff_toNat_le] at h
    omega
  have hc := Utf8.firstByte_lt_iff.mp hlt
  rw [Utf8.firstByte_ascii hc] at h
  rw [isWordChar, hascii c hc]
  have hall : ∀ n ≤ 0x7f, isAsciiAlphabetic (UInt8.ofNat n) = true →
      (Char.ofNat n).isAlphanum = true := by decide
  have hof : Char.ofNat c.val.toNat = c := Char.ofNat_toNat c
  rw [← hof, hall _ hc h, Bool.true_or]

theorem advances_token (hascii : Unicode.AgreesOnAscii) (dialect : Dialect) (c : Char)
    (l : List Char) (h : ¬ Stuck (c :: l)) : Advances l (tokenLexeme dialect c l) := by
  have hsuffix := length_dropWhile_le isWordChar l
  rw [Stuck, not_or] at h
  rw [tokenLexeme]
  split_ifs with hstart hhex hdigit hq hident hnamed hparam hcolon hsym
  · -- a bytes literal
    obtain ⟨d, l, rfl⟩ : ∃ d l', l = d :: l' := by
      cases l with
      | nil => cases hhex.2
      | cons d l => exact ⟨d, l, rfl⟩
    obtain rfl : d = '\'' := Option.some.inj hhex.2
    rw [List.tail_cons, bytesLexeme]
    rcases hs : quoted '\'' l with _ | ⟨s, r⟩
    · trivial
    have hr := quoted_length hs
    dsimp only
    rcases hd : Hex.decodeHex s with e | _ | b
    · exact h.2 ⟨hhex.1, l, s, r, rfl, hs, (Hex.decodeHex_eq_error.mp hd).1⟩
    · trivial
    · exact hr.trans (by simp)
  · -- a word
    have hword : isWordChar c = true := by
      rcases hstart with hletter | rfl | hbyte
      · exact isWordChar_of_isAsciiAlphabetic hascii hletter
      · rw [isWordChar, beq_self_eq_true, Bool.or_true]
      · have hc : 0x7f < c.val.toNat := by
          by_contra hc
          exact absurd (Utf8.firstByte_lt_iff.mpr (not_lt.mp hc)) (not_lt.mpr hbyte)
        rw [isWordChar, Bool.or_eq_true]
        exact .inl (by simpa using fun hnot ↦ h.1 ⟨hc, hnot⟩)
    rw [List.dropWhile_cons_of_pos hword]
    exact hsuffix
  · exact advances_number l hdigit
  · exact advances_quoted l _
  · exact advances_quoted l _
  · exact hsuffix
  · exact advances_param c l
  · exact hsuffix
  · exact le_rfl
  · exact advances_symbol c l

/-- **An iteration moves on unless it is stuck.** -/
theorem advances_lexeme (hascii : Unicode.AgreesOnAscii) (dialect : Dialect) (c : Char)
    (l : List Char) (h : ¬ Stuck (c :: l)) : Advances l (lexeme dialect (c :: l)) := by
  rw [lexeme]
  split_ifs with hblank hline hblock
  · exact le_rfl
  · have hc : (c != '\n') = true := by
      cases dialect <;> simp [Dialect.lineComment] at hline <;> simp [← hline.1]
    rw [List.dropWhile_cons, if_pos hc]
    exact length_dropWhile_le _ l
  · rcases hfind : Utf8.findText "*/".toList l.tail with _ | n
    · trivial
    · dsimp only
      rcases hdrop : Utf8.drop l.tail (n + 2) with _ | r
      · exact Nat.zero_le _
      · obtain ⟨x, hx, -⟩ := Utf8.drop_eq_some.mp hdrop
        have hlen := congrArg List.length hx
        rw [List.length_tail, List.length_append] at hlen
        change r.length ≤ l.length
        omega
  · exact advances_token hascii dialect c l h

/-! ## The run -/

/-- The offsets that the loop comes to. -/
inductive Reached (dialect : Dialect) (src : List Char) : ℕ → Prop
  | start : Reached dialect src 0
  | step {i j : ℕ} {t : Option Token} (hi : Reached dialect src i) (hlt : i < size src)
      (h : iterate dialect src i = .ok (j, t)) : Reached dialect src j

/-- The tokenizer comes to an end on a source: its offsets lie between two characters, no later than
the end; every iteration returns an error or moves on; and the loop returns. -/
structure Terminates (dialect : Dialect) (src : List Char) : Prop where
  boundary : ∀ i, Reached dialect src i → ∃ a r, src = a ++ r ∧ size a = i
  progress : ∀ i, Reached dialect src i → i < size src →
    (∃ message, iterate dialect src i = .error (.invalidQuery message)) ∨
      ∃ j t, iterate dialect src i = .ok (j, t) ∧ i < j
  returns : ∃ fuel out, tokenize dialect src fuel = some out ∧
    ∀ message, out ≠ .error (.panic message)

theorem iterate_eq_ok {dialect : Dialect} {a r : List Char} {j : ℕ} {t : Option Token}
    (hne : r ≠ []) (h : iterate dialect (a ++ r) (size a) = .ok (j, t)) :
    ∃ m r', r = m ++ r' ∧ j = size (a ++ m) := by
  obtain ⟨c, l, rfl⟩ := List.exists_cons_of_ne_nil hne
  have hagrees := iterate_agrees dialect a c l
  rw [h] at hagrees
  cases hlex : lexeme dialect (c :: l) <;> rw [hlex] at hagrees
  case skip r' =>
    obtain ⟨m, hm, heq⟩ := hagrees
    exact ⟨m, r', hm, (Prod.mk.inj (Except.ok.inj heq)).1⟩
  case token t' r' =>
    obtain ⟨m, hm, heq⟩ := hagrees
    exact ⟨m, r', hm, (Prod.mk.inj (Except.ok.inj heq)).1⟩
  case refused =>
    obtain ⟨message, heq⟩ := hagrees
    cases heq
  case panics =>
    obtain ⟨message, heq⟩ := hagrees
    cases heq

/-- The loop is always between two characters. -/
theorem Reached.boundary {dialect : Dialect} {src : List Char} {i : ℕ}
    (h : Reached dialect src i) : ∃ a r, src = a ++ r ∧ size a = i := by
  induction h with
  | start => exact ⟨[], src, rfl, rfl⟩
  | step hi hlt h ih =>
    obtain ⟨a, r, rfl, rfl⟩ := ih
    have hne : r ≠ [] := fun hnil ↦ by
      rw [hnil, List.append_nil] at hlt
      exact lt_irrefl _ hlt
    obtain ⟨m, r', rfl, rfl⟩ := iterate_eq_ok hne h
    exact ⟨a ++ m, r', (List.append_assoc ..).symm, rfl⟩

theorem iterate_progress (hascii : Unicode.AgreesOnAscii) (dialect : Dialect) {a r : List Char}
    (hne : r ≠ []) (h : ¬ Stuck r) :
    (∃ message, iterate dialect (a ++ r) (size a) = .error (.invalidQuery message)) ∨
      ∃ m r' t, r = m ++ r' ∧ m ≠ [] ∧
        iterate dialect (a ++ r) (size a) = .ok (size (a ++ m), t) := by
  obtain ⟨c, l, rfl⟩ := List.exists_cons_of_ne_nil hne
  have hagrees := iterate_agrees dialect a c l
  have hadvances := advances_lexeme hascii dialect c l h
  have hlonger : ∀ {m r' : List Char}, c :: l = m ++ r' → r'.length ≤ l.length → m ≠ [] := by
    rintro m r' hm hle rfl
    rw [List.nil_append] at hm
    rw [← hm, List.length_cons] at hle
    omega
  cases hlex : lexeme dialect (c :: l) <;> rw [hlex] at hagrees hadvances
  case skip r' =>
    obtain ⟨m, hm, heq⟩ := hagrees
    exact .inr ⟨m, r', none, hm, hlonger hm hadvances, heq⟩
  case token t r' =>
    obtain ⟨m, hm, heq⟩ := hagrees
    exact .inr ⟨m, r', some _, hm, hlonger hm hadvances, heq⟩
  case refused => exact .inl hagrees
  case panics => exact hadvances.elim

theorem tokenizeFrom_succ {dialect : Dialect} {a r : List Char} (hne : r ≠ []) (fuel : ℕ)
    (out : List Token) :
    tokenizeFrom dialect (a ++ r) (fuel + 1) (size a) out =
      match iterate dialect (a ++ r) (size a) with
      | .error e => some (.error e)
      | .ok (j, tok) => tokenizeFrom dialect (a ++ r) fuel j (out ++ tok.toList) := by
  have hpos : 0 < size r := Nat.pos_of_ne_zero (mt Utf8.size_eq_zero.mp hne)
  have hlt : size a < size (a ++ r) := by
    rw [Utf8.size_append]
    omega
  exact if_pos hlt

theorem tokenizeFrom_returns (hascii : Unicode.AgreesOnAscii) {dialect : Dialect}
    {src : List Char} (h : ∀ i r, Reached dialect src i → Utf8.drop src i = some r → ¬ Stuck r)
    (n : ℕ) {a r : List Char} (hsrc : src = a ++ r) (hlen : r.length ≤ n)
    (hreached : Reached dialect src (size a)) (out : List Token) :
    ∃ x, tokenizeFrom dialect src (n + 1) (size a) out = some x ∧
      ∀ message, x ≠ .error (.panic message) := by
  induction n generalizing a r out with
  | zero =>
    obtain rfl := List.eq_nil_of_length_eq_zero (Nat.le_zero.mp hlen)
    rw [hsrc, List.append_nil, tokenizeFrom, if_neg (lt_irrefl _)]
    exact ⟨_, rfl, by simp⟩
  | succ n ih =>
    by_cases hne : r = []
    · rw [hsrc, hne, List.append_nil, tokenizeFrom, if_neg (lt_irrefl _)]
      exact ⟨_, rfl, by simp⟩
    have hstuck := h _ r hreached (by rw [hsrc, Utf8.drop_append])
    have hsucc := @tokenizeFrom_succ _ dialect a r hne (n + 1) out
    rw [hsrc, hsucc]
    rcases @iterate_progress _ hascii dialect a r hne hstuck with ⟨e, he⟩ | ⟨m, r', t, rfl, hm, hok⟩
    · rw [he]
      exact ⟨_, rfl, by simp⟩
    · rw [hok, ← hsrc]
      have hpos : 0 < m.length := List.length_pos_iff.mpr hm
      rw [List.length_append] at hlen
      have hlt : size a < size src := by
        rw [hsrc, Utf8.size_append, Utf8.size_append]
        have := Nat.pos_of_ne_zero (mt Utf8.size_eq_zero.mp hm)
        omega
      exact ih (a := a ++ m) (r := r') (by rw [hsrc, List.append_assoc]) (by omega)
        (hreached.step hlt (by rw [hsrc, hok])) _

/-- **The tokenizer comes to an end exactly when it never reaches a text that it is stuck at.** -/
theorem tokenize_terminates_iff (hascii : Unicode.AgreesOnAscii) (dialect : Dialect)
    (src : List Char) :
    Terminates dialect src ↔
      ∀ i r, Reached dialect src i → Utf8.drop src i = some r → ¬ Stuck r := by
  constructor
  · intro hterm i r hreached hr hstuck
    obtain ⟨a, rfl, rfl⟩ := Utf8.drop_eq_some.mp hr
    obtain ⟨c, l, rfl⟩ : ∃ c l, r = c :: l := by
      cases r with
      | nil => exact hstuck.elim
      | cons c l => exact ⟨c, l, rfl⟩
    have hagrees := iterate_agrees dialect a c l
    have hlt : size a < size (a ++ c :: l) := by
      have := c.utf8Size_pos
      rw [Utf8.size_append, Utf8.size_cons]
      omega
    have hprogress := hterm.progress _ hreached hlt
    rcases hstuck with hstray | htorn
    · rw [hstray.lexeme] at hagrees
      obtain ⟨m, hm, heq⟩ := hagrees
      obtain rfl : m = [] := List.append_left_eq_self.mp hm.symm
      rw [heq, List.append_nil] at hprogress
      rcases hprogress with ⟨_, he⟩ | ⟨j, t, hok, hj⟩
      · cases he
      · exact absurd (Prod.mk.inj (Except.ok.inj hok)).1 hj.ne
    · rw [htorn.lexeme] at hagrees
      obtain ⟨message, heq⟩ := hagrees
      rw [heq] at hprogress
      rcases hprogress with ⟨_, he⟩ | ⟨j, t, hok, -⟩
      · cases he
      · cases hok
  · intro h
    refine ⟨fun i hi ↦ hi.boundary, fun i hi hlt ↦ ?_, src.length + 1, ?_⟩
    · obtain ⟨a, r, rfl, rfl⟩ := hi.boundary
      have hne : r ≠ [] := fun hnil ↦ by
        rw [hnil, List.append_nil] at hlt
        exact lt_irrefl _ hlt
      refine (iterate_progress hascii dialect hne (h _ r hi (Utf8.drop_append a r))).imp id ?_
      rintro ⟨m, r', t, -, hm, hok⟩
      refine ⟨_, t, hok, ?_⟩
      have := Nat.pos_of_ne_zero (mt Utf8.size_eq_zero.mp hm)
      rw [Utf8.size_append]
      omega
    · exact tokenizeFrom_returns hascii h src.length (a := []) rfl le_rfl .start []

end

/-! ### Two sources -/

section

local instance : Unicode := Unicode.ascii

theorem tokenize_terminates_word :
    Unicode.AgreesOnAscii ∧ (Terminates .sql "a".toList ↔
      ∀ i r, Reached .sql "a".toList i → Utf8.drop "a".toList i = some r → ¬ Stuck r) :=
  ⟨fun _ _ ↦ rfl, tokenize_terminates_iff (fun _ _ ↦ rfl) .sql "a".toList⟩

/-- A currency sign is read as an empty word forever, and a torn bytes literal is a panic. -/
theorem not_terminates :
    ¬ Terminates .sql "€".toList ∧ ¬ Terminates .graph "x'aé1'".toList := by
  have hascii : Unicode.AgreesOnAscii := fun _ _ ↦ rfl
  constructor
  · intro h
    exact absurd (.inl (by unfold Stray; decide)) <|
      (tokenize_terminates_iff hascii .sql "€".toList).mp h 0 "€".toList .start rfl
  · intro h
    refine absurd (.inr ⟨.inl rfl, "aé1'".toList, "aé1".toList, [], rfl, rfl, ?_⟩) <|
      (tokenize_terminates_iff hascii .graph _).mp h 0 "x'aé1'".toList .start rfl
    unfold Hex.Torn
    decide

end

end Lexer
