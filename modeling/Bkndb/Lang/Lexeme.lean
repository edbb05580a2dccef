import Bkndb.Lang.Lexer

/-!
# What an iteration of the tokenizer reads

`lexeme` is what one iteration of the tokenizer's loop does with the characters that are left;
`iterate_agrees` says that at every offset between two characters the loop does so. An iteration
moves on unless what is left begins with a character outside ASCII that is neither a letter nor a
digit: this one is taken for a word, and the word is empty.

## Two descriptions

`iterate`, in the module before, is the loop of the source with its byte offsets; `lexeme` reads
the same from the characters that are left. They agree branch by branch (the lemmas `_agrees`), at
offsets between two characters; and since an iteration leads to such an offset again, `lexeme`
describes the whole run.
-/

namespace Lexer

open Utf8 (bytes size firstByte)

/-! ## Reading by characters -/

/-- What one iteration finds at the front of what is left. -/
inductive Lexeme where
  /-- A blank or a comment, and what comes after it. -/
  | skip (r : List Char)
  /-- A token, and what comes after it. -/
  | token (t : Tok) (r : List Char)
  | refused
  | panics

/-- An ASCII digit. -/
def isDigit (c : Char) : Bool := isAsciiDigit (firstByte c)

/-- What a parameter's name begins with. -/
def startsName (c : Char) : Bool := isNameStart (firstByte c)

/-- The fraction a text begins with, if it does. -/
def fractionText : List Char → List Char
  | [] => []
  | c :: l => if c = '.' ∧ l.head?.any isDigit then c :: l.takeWhile isDigit else []

/-- The sign a text begins with, if it does. -/
def signText (r : List Char) : List Char := (r.take 1).filter fun c ↦ c == '+' || c == '-'

/-- The exponent a text begins with, if it does. -/
def exponentText : List Char → List Char
  | [] => []
  | c :: l =>
    let digits := l.drop (signText l).length
    if (c = 'e' ∨ c = 'E') ∧ digits.head?.any isDigit then
      c :: (signText l ++ digits.takeWhile isDigit)
    else []

/-- The digits, the fraction and the exponent of the number a text begins with, and what is left. -/
def number (r : List Char) : List Char × List Char × List Char × List Char :=
  let afterDigits := r.dropWhile isDigit
  let fraction := fractionText afterDigits
  let afterFraction := afterDigits.drop fraction.length
  let exponent := exponentText afterFraction
  (r.takeWhile isDigit, fraction, exponent, afterFraction.drop exponent.length)

/-- A number. -/
def numberLexeme (r : List Char) : Lexeme :=
  let (digits, fraction, exponent, rest) := number r
  let text := digits ++ fraction ++ exponent
  if fraction = [] ∧ exponent = [] then
    match Digits.parseInt64 text with
    | some i => .token (.int i) rest
    | none => .refused
  else match parseF64 text with
    | some x => .token (.float x) rest
    | none => .refused

/-- The text up to the closing quote, and what is left after it. -/
def quoted (q : Char) : List Char → Option (List Char × List Char)
  | [] => none
  | c :: l =>
    if c = q then
      match l with
      | [] => some ([], [])
      | d :: l' => if d = q then (quoted q l').map (Prod.map (q :: ·) id) else some ([], d :: l')
    else (quoted q l).map (Prod.map (c :: ·) id)

/-- A bytes literal, after its opening quote. -/
def bytesLexeme (l : List Char) : Lexeme :=
  match quoted '\'' l with
  | none => .refused
  | some (s, r) => match Hex.decodeHex s with
    | .ok (some b) => .token (.bytes b) r
    | .ok none => .refused
    | .error _ => .panics

/-- A positional or numbered parameter, after its sign. -/
def paramLexeme (c : Char) (l : List Char) : Lexeme :=
  let digits := l.takeWhile isDigit
  let r := l.dropWhile isDigit
  if digits = [] then if c = '$' then .refused else .token .param r
  else match Digits.parseUnsigned 10 (2 ^ 64) digits with
    | some n => if n = 0 then .refused else .token (.numberedParam n) r
    | none => .refused

/-- The token a text begins with. -/
def tokenLexeme [Unicode] (dialect : Dialect) (c : Char) (l : List Char) : Lexeme :=
  if isAsciiAlphabetic (firstByte c) ∨ c = '_' ∨ 0x80 ≤ (firstByte c).toNat then
    if (c = 'x' ∨ c = 'X') ∧ l.head? = some '\'' then bytesLexeme l.tail
    else .token (.ident (.ofList ((c :: l).takeWhile isWordChar))) ((c :: l).dropWhile isWordChar)
  else if isDigit c then numberLexeme (c :: l)
  else if c = '\'' then match quoted c l with
    | some (s, r) => .token (.str (.ofList s)) r
    | none => .refused
  else if c = '"' ∨ c = '\x60' then match quoted c l with
    | some (s, r) => .token (.quotedIdent (.ofList s)) r
    | none => .refused
  else if c = '$' ∧ l.head?.any startsName then
    .token (.namedParam (.ofList (l.takeWhile isWordChar))) (l.dropWhile isWordChar)
  else if c = '?' ∨ c = '$' then paramLexeme c l
  else if c = ':' ∧ dialect = .sql ∧ l.head?.any startsName then
    .token (.namedParam (.ofList (l.takeWhile isWordChar))) (l.dropWhile isWordChar)
  else if c = ':' then .token (.sym ":") l
  else match symbols.find? fun s ↦ s.toList.isPrefixOf (c :: l) with
    | some s => .token (.sym s) ((c :: l).drop s.toList.length)
    | none => .refused

/-- What the loop reads from a text. -/
def lexeme [Unicode] (dialect : Dialect) : List Char → Lexeme
  | [] => .refused
  | c :: l =>
    if isAsciiWhitespace (firstByte c) then .skip l
    else if dialect.lineComment.isPrefixOf (c :: l) then .skip ((c :: l).dropWhile (· != '\n'))
    else if "/*".toList.isPrefixOf (c :: l) then
      match Utf8.findText "*/".toList l.tail with
      | some n => .skip ((Utf8.drop l.tail (n + 2)).getD [])
      | none => .refused
    else tokenLexeme dialect c l

/-! ## The offsets of the loop

Each offset that a branch computes is the size of the text before it, put together from the pieces
that were read. -/

theorem sliceFrom_append (a r : List Char) : sliceFrom (a ++ r) (size a) = .ok r := by
  rw [sliceFrom, Utf8.drop_append]
  rfl

theorem sliceText_append (a m r : List Char) :
    sliceText (a ++ (m ++ r)) (size a) (size (a ++ m)) = .ok m := by
  rw [sliceText, Except.ofOption_eq_ok, Utf8.slice_eq_some]
  exact ⟨a, r, (List.append_assoc ..).symm, rfl, (Utf8.size_append a m).symm⟩

theorem errAt_append (a r : List Char) (message : String) :
    ∃ m, errAt (a ++ r) (size a) message = .invalidQuery m := by
  rw [errAt, min_eq_left (by rw [Utf8.size_append]; omega), Utf8.splitAt_append]
  exact ⟨_, rfl⟩

theorem firstByte_beq {c d : Char} (hd : d.val.toNat ≤ 0x7f) :
    (firstByte c == d.toUInt8) = (c == d) := by
  have hbyte : d.toUInt8 = firstByte d := (Utf8.firstByte_ascii hd).symm
  rw [hbyte, Bool.eq_iff_iff, beq_iff_eq, beq_iff_eq, Utf8.firstByte_eq_iff hd]

theorem firstByte_eq {c d : Char} (hd : d.val.toNat ≤ 0x7f) :
    firstByte c = d.toUInt8 ↔ c = d := by
  have h := @firstByte_beq c d hd
  rwa [Bool.eq_iff_iff, beq_iff_eq, beq_iff_eq] at h

theorem lt_of_isAsciiDigit {b : UInt8} (h : isAsciiDigit b = true) : b.toNat < 0x80 := by
  rw [isAsciiDigit, Bool.and_eq_true, decide_eq_true_eq, decide_eq_true_eq] at h
  have := UInt8.le_iff_toNat_le.mp h.2
  have h39 : (0x39 : UInt8).toNat = 57 := rfl
  omega

theorem digitsEnd_append (a r : List Char) :
    digitsEnd (bytes (a ++ r)) (size a) = size (a ++ r.takeWhile isDigit) := by
  rw [digitsEnd, Utf8.drop_bytes_append, Utf8.size_append,
    Utf8.length_takeWhile_bytes fun b ↦ lt_of_isAsciiDigit]
  rfl

theorem digitsEnd_succ (a : List Char) {c : Char} (hc : (firstByte c).toNat < 0x80)
    (r : List Char) :
    digitsEnd (bytes (a ++ c :: r)) (size a + 1) = size (a ++ c :: r.takeWhile isDigit) := by
  have h := digitsEnd_append (a ++ [c]) r
  rwa [Utf8.size_append, Utf8.size_cons, Utf8.utf8Size_of_firstByte hc, Utf8.size_nil,
    List.append_assoc, List.append_assoc] at h

theorem fractionEnd_append (a r : List Char) :
    fractionEnd (bytes (a ++ r)) (size a) =
      (size (a ++ fractionText r), decide (fractionText r ≠ [])) := by
  rw [fractionEnd, Utf8.getElem?_bytes]
  cases r with
  | nil => simp [fractionText]
  | cons c l =>
    by_cases hc : c = '.'
    · subst hc
      rw [Utf8.getElem?_bytes_succ a (by decide), digitsEnd_succ a (by decide)]
      have hany : (l.head?.map firstByte).any isAsciiDigit = l.head?.any isDigit := by
        cases l <;> rfl
      rw [hany, fractionText]
      have hdot : (Option.map firstByte ('.' :: l).head? == some '.'.toUInt8) = true := by rfl
      rw [hdot, Bool.true_and]
      by_cases hd : l.head?.any isDigit = true
      · rw [if_pos hd, if_pos ⟨rfl, hd⟩]
        rfl
      · rw [if_neg hd, if_neg fun h ↦ hd h.2]
        simp
    · have hbyte : (Option.map firstByte (c :: l).head? == some '.'.toUInt8) = false := by
        rw [List.head?_cons, Option.map_some]
        have := @firstByte_beq c '.' (by decide)
        simpa [hc] using this
      rw [hbyte, Bool.false_and, if_neg Bool.false_ne_true, fractionText, if_neg fun h ↦ hc h.1]
      simp

theorem signText_append_drop (l : List Char) : signText l ++ l.drop (signText l).length = l := by
  cases l with
  | nil => rfl
  | cons c l =>
    rw [signText, List.take_succ_cons, List.take_zero, List.filter_cons]
    split <;> rfl

theorem signEnd_append (a : List Char) {c : Char} (hc : (firstByte c).toNat < 0x80)
    (l : List Char) :
    (if (bytes (a ++ c :: l))[size a + 1]?.any fun b ↦ b == '+'.toUInt8 || b == '-'.toUInt8
      then size a + 2 else size a + 1) = size (a ++ c :: signText l) := by
  rw [Utf8.getElem?_bytes_succ a hc, Utf8.size_append, Utf8.size_cons,
    Utf8.utf8Size_of_firstByte hc]
  cases l with
  | nil => rfl
  | cons s l =>
    rw [List.head?_cons, Option.map_some, Option.any_some, firstByte_beq (by decide),
      firstByte_beq (by decide), signText, List.take_succ_cons, List.take_zero, List.filter_cons]
    by_cases hs : (s == '+' || s == '-') = true
    · have hsize : s.utf8Size = 1 := by
        rcases Bool.or_eq_true_iff.mp hs with h | h <;> rw [beq_iff_eq.mp h] <;> rfl
      rw [if_pos hs, if_pos hs, Utf8.size_cons, hsize]
      rfl
    · rw [if_neg hs, if_neg hs]
      rfl

theorem exponentEnd_append (a r : List Char) (isFloat : Bool) :
    exponentEnd (bytes (a ++ r)) (size a) isFloat =
      (size (a ++ exponentText r), decide (exponentText r ≠ []) || isFloat) := by
  rw [exponentEnd, Utf8.getElem?_bytes]
  cases r with
  | nil => simp [exponentText]
  | cons c l =>
    rw [List.head?_cons, Option.map_some, Option.any_some, firstByte_beq (by decide),
      firstByte_beq (by decide)]
    by_cases hc : c = 'e' ∨ c = 'E'
    · have hbyte : (firstByte c).toNat < 0x80 := by
        rcases hc with rfl | rfl <;> decide
      have hsrc : a ++ c :: l =
          (a ++ c :: signText l) ++ l.drop (signText l).length := by
        rw [List.append_assoc, List.cons_append, signText_append_drop]
      rw [if_pos (by simpa using hc), signEnd_append a hbyte l]
      dsimp only
      rw [hsrc, Utf8.getElem?_bytes, digitsEnd_append, exponentText]
      have hany : ((l.drop (signText l).length).head?.map firstByte).any isAsciiDigit =
          (l.drop (signText l).length).head?.any isDigit := by
        cases l.drop (signText l).length <;> rfl
      rw [hany]
      by_cases hd : (l.drop (signText l).length).head?.any isDigit = true
      · rw [if_pos hd, if_pos ⟨hc, hd⟩, List.append_assoc]
        rfl
      · rw [if_neg hd, if_neg fun h ↦ hd h.2]
        simp
    · rw [if_neg (by simpa using hc), exponentText, if_neg fun h ↦ hc h.1]
      simp

/-! ## Tokens

A reader that fails gives an error with a line and a column. Which one is not compared: `Agrees`
asks for an error where the description has one. -/

/-- What reading a token at an offset does, in terms of the text there. -/
def Agrees (a r : List Char) (x : Except BknError (Tok × ℕ)) : Lexeme → Prop
  | .skip _ => False
  | .token t r' => ∃ m, r = m ++ r' ∧ x = .ok (t, size (a ++ m))
  | .refused => ∃ message, x = .error (.invalidQuery message)
  | .panics => ∃ message, x = .error (.panic message)

theorem refused_of_errAt (a r : List Char) (message : String) :
    Agrees a r (.error (errAt (a ++ r) (size a) message)) .refused := by
  obtain ⟨m, hm⟩ := errAt_append a r message
  exact ⟨m, by rw [hm]⟩

theorem fractionText_isPrefix (r : List Char) : fractionText r <+: r := by
  cases r with
  | nil => exact List.prefix_rfl
  | cons c l =>
    rw [fractionText]
    split
    · exact List.prefix_cons_inj c |>.mpr (List.takeWhile_prefix _)
    · exact List.nil_prefix

theorem exponentText_isPrefix (r : List Char) : exponentText r <+: r := by
  cases r with
  | nil => exact List.prefix_rfl
  | cons c l =>
    rw [exponentText]
    split
    · have h := List.prefix_append_right_inj (signText l) |>.mpr
        (@List.takeWhile_prefix _ (l.drop (signText l).length) isDigit)
      rw [signText_append_drop] at h
      exact List.prefix_cons_inj c |>.mpr h
    · exact List.nil_prefix

/-- A number and what is left of the text. -/
theorem number_append (r : List Char) :
    (number r).1 ++ ((number r).2.1 ++ ((number r).2.2.1 ++ (number r).2.2.2)) = r := by
  rw [number]
  dsimp only
  rw [List.prefix_iff_eq_append.mp (exponentText_isPrefix _),
    List.prefix_iff_eq_append.mp (fractionText_isPrefix _), List.takeWhile_append_dropWhile]

/-- Where the number at an offset ends, and whether it is a `Float`. -/
theorem numberEnd_append (a r : List Char) :
    let bytes := bytes (a ++ r)
    let fraction := fractionEnd bytes (digitsEnd bytes (size a))
    exponentEnd bytes fraction.1 fraction.2 =
      (size (a ++ ((number r).1 ++ (number r).2.1 ++ (number r).2.2.1)),
        decide (¬ ((number r).2.1 = [] ∧ (number r).2.2.1 = []))) := by
  have hdigits : a ++ r = (a ++ r.takeWhile isDigit) ++ r.dropWhile isDigit := by
    rw [List.append_assoc, List.takeWhile_append_dropWhile]
  have hfraction : a ++ r = (a ++ r.takeWhile isDigit ++ (number r).2.1) ++
      (r.dropWhile isDigit).drop (number r).2.1.length := by
    rw [List.append_assoc]
    nth_rewrite 1 [hdigits]
    exact congrArg _ (List.prefix_iff_eq_append.mp (fractionText_isPrefix _)).symm
  have hfrac : fractionEnd (bytes (a ++ r)) (size (a ++ r.takeWhile isDigit)) =
      (size (a ++ r.takeWhile isDigit ++ (number r).2.1), decide ((number r).2.1 ≠ [])) := by
    nth_rewrite 1 [hdigits]
    exact fractionEnd_append _ _
  dsimp only
  rw [digitsEnd_append, hfrac]
  dsimp only
  nth_rewrite 1 [hfraction]
  rw [exponentEnd_append]
  refine Prod.ext ?_ ?_
  · simp only [List.append_assoc]
    rfl
  · dsimp only
    rw [Bool.eq_iff_iff, Bool.or_eq_true, decide_eq_true_eq, decide_eq_true_eq, decide_eq_true_eq,
      not_and_or, or_comm]
    rfl

theorem readNumber_agrees (a r : List Char) :
    Agrees a r (readNumber (a ++ r) (size a)) (numberLexeme r) := by
  rcases hn : number r with ⟨digits, fraction, exponent, rest⟩
  have happend := number_append r
  have hend := numberEnd_append a r
  rw [hn] at happend hend
  dsimp only at happend hend
  have htext : r = (digits ++ fraction ++ exponent) ++ rest := by
    rw [List.append_assoc, List.append_assoc, happend]
  rw [readNumber, numberLexeme, hn]
  dsimp only
  rw [hend]
  nth_rewrite 2 [htext]
  rw [sliceText_append, Except.ok_bind]
  dsimp only
  by_cases hint : fraction = [] ∧ exponent = []
  · rw [if_pos hint, if_neg (by simpa using hint)]
    cases Digits.parseInt64 (digits ++ fraction ++ exponent) with
    | none => exact refused_of_errAt a r _
    | some i => exact ⟨_, htext, rfl⟩
  · rw [if_neg hint, if_pos (decide_eq_true hint)]
    cases parseF64 (digits ++ fraction ++ exponent) with
    | none => exact refused_of_errAt a r _
    | some x => exact ⟨_, htext, rfl⟩

/-! ### Quotes -/

theorem quoted_cons_of_ne {q c : Char} (h : c ≠ q) (l : List Char) :
    quoted q (c :: l) = (quoted q l).map (Prod.map (c :: ·) id) := by
  rw [quoted.eq_def]
  exact if_neg h

theorem notMem_utf8EncodeChar {c q : Char} (hq : q.val.toNat ≤ 0x7f) (h : c ≠ q) :
    ∀ b ∈ String.utf8EncodeChar c, b ≠ q.toUInt8 := by
  rintro b hb rfl
  by_cases hc : c.val.toNat ≤ 0x7f
  · have hbyte := Utf8.utf8EncodeChar_ascii hc
    rw [hbyte, List.mem_singleton, ← Utf8.firstByte_ascii hc] at hb
    exact h ((firstByte_eq hq).mp hb.symm)
  · have hle := Utf8.le_of_mem_utf8EncodeChar hc hb
    have hlt := Utf8.firstByte_lt_iff.mpr hq
    rw [Utf8.firstByte_ascii hq] at hlt
    exact absurd hle (not_le.mpr hlt)

theorem readQuotedFrom_skip (src : List Char) (start : ℕ) (q : Char) (i run : ℕ) (out : List Char)
    (b rest : Bytes) (h : ∀ x ∈ b, x ≠ q.toUInt8) :
    readQuotedFrom src start q i run out (b ++ rest) =
      readQuotedFrom src start q (i + b.length) run out rest := by
  induction b generalizing i with
  | nil => rfl
  | cons x b ih =>
    rw [List.forall_mem_cons] at h
    rw [List.cons_append, readQuotedFrom, if_neg h.1, ih _ h.2, List.length_cons]
    congr 1
    omega

/-- Reading on in a quoted run, of which `run` is not copied yet. -/
theorem readQuotedFrom_append {q : Char} (hq : q.val.toNat ≤ 0x7f) (start : ℕ)
    (a run r out : List Char) :
    readQuotedFrom (a ++ (run ++ r)) start q (size (a ++ run)) (size a) out (bytes r) =
      match quoted q r with
      | none => .error (errAt (a ++ (run ++ r)) start "unterminated quoted text")
      | some (s, r') => .ok (out ++ run ++ s, size (a ++ (run ++ r)) - size r') := by
  have hbyte : String.utf8EncodeChar q = [q.toUInt8] := Utf8.utf8EncodeChar_ascii hq
  have hsize : q.utf8Size = 1 := Utf8.utf8Size_ascii hq
  induction r using quoted.induct q generalizing a run out with
  | case1 => rfl
  | case2 =>
    rw [Utf8.bytes_cons, hbyte, Utf8.bytes_nil, List.append_nil, readQuotedFrom, if_pos rfl,
      sliceText_append, quoted, if_pos rfl]
    simp [hsize, Nat.add_assoc]
  | case3 l ih =>
    have hih := ih (a ++ (run ++ [q, q])) [] (out ++ run ++ [q])
    have hsrc : a ++ (run ++ [q, q]) ++ ([] ++ l) = a ++ (run ++ q :: q :: l) := by simp
    have hoff : size (a ++ (run ++ [q, q])) = size (a ++ run) + 2 := by simp [hsize, Nat.add_assoc]
    rw [hsrc, List.append_nil, hoff] at hih
    rw [Utf8.bytes_cons, Utf8.bytes_cons, hbyte, List.cons_append, List.nil_append,
      List.cons_append, List.nil_append, readQuotedFrom, if_pos rfl, sliceText_append,
      Except.ok_bind]
    dsimp only
    rw [if_pos rfl, hih, quoted, if_pos rfl, if_pos rfl]
    cases quoted q l with
    | none => rfl
    | some p => simp
  | case4 d l hd =>
    obtain ⟨b, hb⟩ := Utf8.utf8EncodeChar_eq_cons d
    have hne : firstByte d ≠ q.toUInt8 := fun h ↦ hd ((firstByte_eq hq).mp h)
    rw [Utf8.bytes_cons, Utf8.bytes_cons, hbyte, hb, List.cons_append, List.nil_append,
      List.cons_append, readQuotedFrom, if_pos rfl, sliceText_append, Except.ok_bind]
    dsimp only
    rw [if_neg hne, quoted, if_pos rfl, if_neg hd]
    simp only [Utf8.size_append, Utf8.size_cons, hsize, List.append_nil]
    refine congrArg Except.ok (Prod.ext rfl ?_)
    dsimp only
    omega
  | case5 c l hc ih =>
    have hih := ih a (run ++ [c]) out
    have hoff : size (a ++ (run ++ [c])) = size (a ++ run) + (String.utf8EncodeChar c).length := by
      rw [String.length_utf8EncodeChar, ← List.append_assoc, Utf8.size_append _ [c]]
      simp
    rw [List.append_assoc, List.singleton_append, hoff] at hih
    rw [Utf8.bytes_cons, readQuotedFrom_skip _ _ _ _ _ _ _ _ (notMem_utf8EncodeChar hq hc), hih,
      quoted_cons_of_ne hc]
    cases quoted q l with
    | none => rfl
    | some p => simp

theorem quoted_append {q : Char} {l s r : List Char} (h : quoted q l = some (s, r)) :
    ∃ m, l = m ++ r := by
  induction l using quoted.induct q generalizing s r with
  | case1 => cases h
  | case2 =>
    rw [quoted, if_pos rfl] at h
    obtain ⟨-, rfl⟩ := Prod.mk.inj (Option.some.inj h)
    exact ⟨[q], rfl⟩
  | case3 l ih =>
    rw [quoted, if_pos rfl, if_pos rfl] at h
    obtain ⟨⟨s', r'⟩, hq, heq⟩ := Option.map_eq_some_iff.mp h
    obtain ⟨-, rfl⟩ := Prod.mk.inj heq
    obtain ⟨m, rfl⟩ := ih hq
    exact ⟨q :: q :: m, rfl⟩
  | case4 d l hd =>
    rw [quoted, if_pos rfl, if_neg hd] at h
    obtain ⟨-, rfl⟩ := Prod.mk.inj (Option.some.inj h)
    exact ⟨[q], rfl⟩
  | case5 c l hc ih =>
    rw [quoted_cons_of_ne hc] at h
    obtain ⟨⟨s', r'⟩, hq, heq⟩ := Option.map_eq_some_iff.mp h
    obtain ⟨-, rfl⟩ := Prod.mk.inj heq
    obtain ⟨m, rfl⟩ := ih hq
    exact ⟨c :: m, rfl⟩

/-- Reading a quoted run at an offset. -/
theorem readQuoted_append {q : Char} (hq : q.val.toNat ≤ 0x7f) (a l : List Char) :
    (quoted q l = none ∧ ∃ m, readQuoted (a ++ q :: l) (size a) q = .error (.invalidQuery m)) ∨
      ∃ s m r, l = m ++ r ∧ quoted q l = some (s, r) ∧
        readQuoted (a ++ q :: l) (size a) q = .ok (s, size (a ++ q :: m)) := by
  have hsize : q.utf8Size = 1 := Utf8.utf8Size_ascii hq
  have hsrc : a ++ q :: l = (a ++ [q]) ++ ([] ++ l) := by simp
  have hoff : size a + 1 = size (a ++ [q]) := by simp [hsize]
  have hread := readQuotedFrom_append hq (size a) (a ++ [q]) [] l []
  rw [List.append_nil (a ++ [q]), ← hsrc, ← hoff] at hread
  have hbytes : (bytes (a ++ q :: l)).drop (size a + 1) = bytes l := by
    rw [hsrc, hoff, Utf8.drop_bytes_append, List.nil_append]
  rw [readQuoted, hbytes, hread]
  rcases hl : quoted q l with _ | ⟨s, r⟩
  · obtain ⟨m, hm⟩ := errAt_append a (q :: l) "unterminated quoted text"
    exact .inl ⟨rfl, m, congrArg Except.error hm⟩
  · obtain ⟨m, rfl⟩ := quoted_append hl
    refine .inr ⟨s, m, r, rfl, rfl, congrArg Except.ok (Prod.ext rfl ?_)⟩
    simp only [Utf8.size_append, Utf8.size_cons]
    omega

theorem readBytes_agrees {c : Char} (hc : (firstByte c).toNat < 0x80) (a l : List Char) :
    Agrees a (c :: '\'' :: l) (readBytes (a ++ c :: '\'' :: l) (size a)) (bytesLexeme l) := by
  have hsrc : a ++ c :: '\'' :: l = (a ++ [c]) ++ '\'' :: l := by simp
  have hoff : size a + 1 = size (a ++ [c]) := by simp [Utf8.utf8Size_of_firstByte hc]
  rw [readBytes, hoff]
  nth_rewrite 1 [hsrc]
  rcases readQuoted_append (q := '\'') (by decide) (a ++ [c]) l with ⟨hnone, e, he⟩ | ⟨s, m, r, rfl, hs, hread⟩
  · rw [he, bytesLexeme, hnone]
    exact ⟨e, rfl⟩
  · rw [hread, bytesLexeme, hs]
    dsimp only
    rw [Except.ok_bind]
    dsimp only
    rcases hd : Hex.decodeHex s with e | _ | b
    · obtain ⟨-, rfl⟩ := Hex.decodeHex_eq_error.mp hd
      exact ⟨_, rfl⟩
    · exact refused_of_errAt a _ _
    · exact ⟨c :: '\'' :: m, rfl, by simp; rfl⟩

/-! ### Words and parameters -/

theorem stopAt_append (p : Char → Bool) (a r : List Char) :
    stopAt p (a ++ r) (size a) r = size (a ++ r.takeWhile fun c ↦ !p c) := by
  rw [stopAt, Utf8.size_append, Utf8.size_append, ← Utf8.find_getD p r]
  cases Utf8.find p r <;> rfl

theorem readWord_append [Unicode] (a r : List Char) :
    readWord (a ++ r) (size a) =
      .ok (.ofList (r.takeWhile isWordChar), size (a ++ r.takeWhile isWordChar)) := by
  have hstop := stopAt_append (fun c ↦ !isWordChar c) a r
  simp only [Bool.not_not] at hstop
  rw [readWord, sliceFrom_append, Except.ok_bind]
  dsimp only
  rw [hstop]
  nth_rewrite 1 [← List.takeWhile_append_dropWhile (p := isWordChar) (l := r)]
  rw [sliceText_append]
  rfl

theorem readWord_succ [Unicode] (a : List Char) {c : Char} (hc : (firstByte c).toNat < 0x80)
    (l : List Char) :
    readWord (a ++ c :: l) (size a + 1) =
      .ok (.ofList (l.takeWhile isWordChar), size (a ++ c :: l.takeWhile isWordChar)) := by
  have h := readWord_append (a ++ [c]) l
  rwa [Utf8.size_append, Utf8.size_cons, Utf8.utf8Size_of_firstByte hc, Utf8.size_nil,
    List.append_assoc, List.append_assoc] at h

theorem readParam_agrees {c : Char} (hc : (firstByte c).toNat < 0x80) (a l : List Char) :
    Agrees a (c :: l) (readParam (a ++ c :: l) (size a) (firstByte c)) (paramLexeme c l) := by
  have hsrc : a ++ c :: l = (a ++ [c]) ++ (l.takeWhile isDigit ++ l.dropWhile isDigit) := by
    rw [List.takeWhile_append_dropWhile]
    simp
  have hoff : size a + 1 = size (a ++ [c]) := by simp [Utf8.utf8Size_of_firstByte hc]
  have hstop : size (a ++ c :: l.takeWhile isDigit) = size (a ++ [c] ++ l.takeWhile isDigit) := by
    simp
  have hdollar : firstByte c = '$'.toUInt8 ↔ c = '$' := firstByte_eq (by decide)
  have hm : c :: l = (c :: l.takeWhile isDigit) ++ l.dropWhile isDigit := by
    rw [List.cons_append, List.takeWhile_append_dropWhile]
  rw [readParam, digitsEnd_succ a hc l, hstop, hoff]
  nth_rewrite 1 [hsrc]
  rw [sliceText_append, Except.ok_bind, paramLexeme]
  dsimp only
  by_cases hempty : l.takeWhile isDigit = []
  · rw [if_pos hempty, if_pos hempty]
    by_cases hd : c = '$'
    · rw [if_pos (hdollar.mpr hd), if_pos hd]
      exact refused_of_errAt a _ _
    · rw [if_neg (mt hdollar.mp hd), if_neg hd]
      exact ⟨_, hm, by rw [hstop]; rfl⟩
  · rw [if_neg hempty, if_neg hempty]
    cases Digits.parseUnsigned 10 (2 ^ 64) (l.takeWhile isDigit) with
    | none => exact refused_of_errAt a _ _
    | some n =>
      rw [Except.ofOption, Except.ok_bind]
      dsimp only
      by_cases hn : n = 0
      · rw [if_pos hn, if_pos hn]
        exact refused_of_errAt a _ _
      · rw [if_neg hn, if_neg hn]
        exact ⟨_, hm, by rw [hstop]; rfl⟩

/-! ### Every token -/

theorem startsWord_iff {c : Char} :
    (isAsciiAlphabetic (firstByte c) || firstByte c == '_'.toUInt8 || 0x80 ≤ firstByte c) = true ↔
      (isAsciiAlphabetic (firstByte c) ∨ c = '_' ∨ 0x80 ≤ (firstByte c).toNat) := by
  have h80 : (0x80 : UInt8).toNat = 0x80 := rfl
  rw [Bool.or_eq_true, Bool.or_eq_true, beq_iff_eq, firstByte_eq (by decide), decide_eq_true_eq,
    UInt8.le_iff_toNat_le, h80, or_assoc]

theorem any_map_firstByte (o : Option Char) : (o.map firstByte).any isNameStart = o.any startsName := by
  cases o <;> rfl

/-- A prefix that a text begins with, and what is left. -/
theorem eq_append_drop_of_isPrefixOf {p r : List Char} (h : p.isPrefixOf r = true) :
    r = p ++ r.drop p.length :=
  (List.prefix_iff_eq_append.mp (List.isPrefixOf_iff_prefix.mp h)).symm

theorem quotedToken_agrees {q : Char} (hq : q.val.toNat ≤ 0x7f) (a l : List Char)
    (f : List Char → Tok) :
    Agrees a (q :: l) ((readQuoted (a ++ q :: l) (size a) q).map (Prod.map f id))
      (match quoted q l with
        | some (s, r) => .token (f s) r
        | none => .refused) := by
  rcases readQuoted_append hq a l with ⟨hnone, e, he⟩ | ⟨s, m, r, rfl, hs, hread⟩
  · rw [he, hnone]
    exact ⟨e, rfl⟩
  · rw [hread, hs]
    exact ⟨q :: m, rfl, rfl⟩

theorem readToken_agrees [Unicode] (dialect : Dialect) (a : List Char) (c : Char) (l : List Char) :
    Agrees a (c :: l) (readToken dialect (a ++ c :: l) (size a) (firstByte c))
      (tokenLexeme dialect c l) := by
  rw [readToken, tokenLexeme]
  by_cases hword : isAsciiAlphabetic (firstByte c) ∨ c = '_' ∨ 0x80 ≤ (firstByte c).toNat
  · rw [if_pos (startsWord_iff.mpr hword), if_pos hword]
    by_cases hx : (c = 'x' ∨ c = 'X') ∧ l.head? = some '\''
    · have hc : (firstByte c).toNat < 0x80 := by
        rcases hx.1 with rfl | rfl <;> decide
      obtain ⟨d, l, rfl⟩ : ∃ d l', l = d :: l' := by
        cases l with
        | nil => cases hx.2
        | cons d l => exact ⟨d, l, rfl⟩
      obtain rfl : d = '\'' := Option.some.inj hx.2
      rw [if_pos hx, Utf8.getElem?_bytes_succ a hc, if_pos]
      · exact readBytes_agrees hc a l
      · rcases hx.1 with rfl | rfl <;> rfl
    · rw [if_neg hx, if_neg]
      · rw [readWord_append]
        exact ⟨_, (List.takeWhile_append_dropWhile).symm, rfl⟩
      · rw [Bool.and_eq_true, Bool.or_eq_true, beq_iff_eq, beq_iff_eq, beq_iff_eq,
          firstByte_eq (by decide), firstByte_eq (by decide)]
        rintro ⟨hletter, hnext⟩
        have hc : (firstByte c).toNat < 0x80 := by
          rcases hletter with rfl | rfl <;> decide
        rw [Utf8.getElem?_bytes_succ a hc, Option.map_eq_some_iff] at hnext
        obtain ⟨d, hd, hbyte⟩ := hnext
        rw [firstByte_eq (by decide)] at hbyte
        exact hx ⟨hletter, hd.trans (congrArg some hbyte)⟩
  have hc : (firstByte c).toNat < 0x80 := by
    rw [not_or, not_or, not_le] at hword
    exact hword.2.2
  rw [if_neg (mt startsWord_iff.mp hword), if_neg hword]
  have hbyte : isAsciiDigit (firstByte c) = isDigit c := rfl
  rw [hbyte]
  by_cases hdigit : isDigit c = true
  · rw [if_pos hdigit, if_pos hdigit]
    exact readNumber_agrees a (c :: l)
  rw [if_neg hdigit, if_neg hdigit]
  by_cases hq : c = '\''
  · rw [if_pos ((firstByte_eq (by decide)).mpr hq), if_pos hq]
    subst hq
    exact quotedToken_agrees (by decide) a l (.str ∘ .ofList)
  rw [if_neg (mt (firstByte_eq (by decide)).mp hq), if_neg hq]
  by_cases hident : c = '"' ∨ c = '\x60'
  · have h60 : (0x60 : UInt8) = '\x60'.toUInt8 := rfl
    rw [if_pos hident, if_pos (by simpa [h60, firstByte_eq] using hident)]
    have hof : Char.ofNat (firstByte c).toNat = c := by
      rcases hident with rfl | rfl <;> decide
    rw [hof]
    exact quotedToken_agrees (Utf8.firstByte_lt_iff.mp hc) a l (.quotedIdent ∘ .ofList)
  have h60 : (0x60 : UInt8) = '\x60'.toUInt8 := rfl
  rw [if_neg hident, if_neg (by simpa [h60, firstByte_eq] using hident),
    Utf8.getElem?_bytes_succ a hc, any_map_firstByte]
  by_cases hnamed : c = '$' ∧ l.head?.any startsName
  · rw [if_pos hnamed, if_pos (by simpa [firstByte_eq] using hnamed), readWord_succ a hc]
    exact ⟨_, by rw [List.cons_append, List.takeWhile_append_dropWhile], rfl⟩
  rw [if_neg hnamed, if_neg (by simpa [firstByte_eq] using hnamed)]
  by_cases hparam : c = '?' ∨ c = '$'
  · rw [if_pos hparam, if_pos (by simpa [firstByte_eq] using hparam)]
    exact readParam_agrees hc a l
  rw [if_neg hparam, if_neg (by simpa [firstByte_eq] using hparam)]
  by_cases hcolon : c = ':' ∧ dialect = .sql ∧ l.head?.any startsName
  · rw [if_pos hcolon, if_pos (by simpa [firstByte_eq, and_assoc] using hcolon),
      readWord_succ a hc]
    exact ⟨_, by rw [List.cons_append, List.takeWhile_append_dropWhile], rfl⟩
  rw [if_neg hcolon, if_neg (by simpa [firstByte_eq, and_assoc] using hcolon)]
  by_cases hsym : c = ':'
  · rw [if_pos ((firstByte_eq (by decide)).mpr hsym), if_pos hsym]
    subst hsym
    exact ⟨[':'], rfl, by simp; rfl⟩
  rw [if_neg hsym, if_neg (mt (firstByte_eq (by decide)).mp hsym), sliceFrom_append,
    Except.ok_bind]
  cases hfind : symbols.find? fun s ↦ s.toList.isPrefixOf (c :: l) with
  | none => exact refused_of_errAt a _ _
  | some s =>
    have hprefix := List.find?_some hfind
    exact ⟨s.toList, eq_append_drop_of_isPrefixOf hprefix, by rw [Utf8.size_append]; rfl⟩

/-! ## An iteration -/

/-- What an iteration does, in terms of the text at its offset. -/
def Iterates (a r : List Char) (x : Except BknError (ℕ × Option Token)) : Lexeme → Prop
  | .skip r' => ∃ m, r = m ++ r' ∧ x = .ok (size (a ++ m), none)
  | .token t r' => ∃ m, r = m ++ r' ∧ x = .ok (size (a ++ m), some ⟨t, size a⟩)
  | .refused => ∃ message, x = .error (.invalidQuery message)
  | .panics => ∃ message, x = .error (.panic message)

theorem Agrees.iterates {a r : List Char} {x : Except BknError (Tok × ℕ)} {m : Lexeme}
    (h : Agrees a r x m) : Iterates a r (x.map fun t ↦ (t.2, some ⟨t.1, size a⟩)) m := by
  cases m with
  | skip => exact h.elim
  | token t r' =>
    obtain ⟨m, hm, rfl⟩ := h
    exact ⟨m, hm, rfl⟩
  | refused =>
    obtain ⟨message, rfl⟩ := h
    exact ⟨message, rfl⟩
  | panics =>
    obtain ⟨message, rfl⟩ := h
    exact ⟨message, rfl⟩

theorem lt_of_isAsciiWhitespace {b : UInt8} (h : isAsciiWhitespace b = true) : b.toNat < 0x80 := by
  simp only [isAsciiWhitespace, Bool.or_eq_true, beq_iff_eq] at h
  rcases h with (((rfl | rfl) | rfl) | rfl) | rfl <;> decide

/-- A comment between `/*` and `*/`. -/
theorem iterates_comment (a l : List Char) :
    Iterates a ('/' :: '*' :: l) (do
      let n ← .ofOption (errAt (a ++ '/' :: '*' :: l) (size a) "unterminated comment")
        (Utf8.findText "*/".toList (← sliceFrom (a ++ '/' :: '*' :: l) (size a + 2)))
      return (size a + 2 + n + 2, none))
      (match Utf8.findText "*/".toList l with
        | some n => .skip ((Utf8.drop l (n + 2)).getD [])
        | none => .refused) := by
  have hopen := sliceFrom_append (a ++ ['/', '*']) l
  have hsize : size (a ++ ['/', '*']) = size a + 2 := by simp; rfl
  rw [hsize, List.append_assoc] at hopen
  rw [show a ++ '/' :: '*' :: l = a ++ (['/', '*'] ++ l) from rfl, hopen, Except.ok_bind]
  cases hfind : Utf8.findText "*/".toList l with
  | none =>
    obtain ⟨message, hmessage⟩ := errAt_append a (['/', '*'] ++ l) "unterminated comment"
    exact ⟨message, congrArg Except.error hmessage⟩
  | some n =>
    obtain ⟨x, y, rfl, rfl⟩ := Utf8.exists_of_findText hfind
    have hclose : size x + 2 = size (x ++ "*/".toList) := by rw [Utf8.size_append]; rfl
    have hdrop : Utf8.drop (x ++ "*/".toList ++ y) (size x + 2) = some y := by
      rw [hclose, Utf8.drop_append]
    dsimp only
    rw [hdrop]
    refine ⟨'/' :: '*' :: (x ++ "*/".toList), rfl, congrArg Except.ok (Prod.ext ?_ rfl)⟩
    rw [Utf8.size_append, Utf8.size_cons, Utf8.size_cons, ← hclose]
    have hslash : '/'.utf8Size = 1 := rfl
    have hstar : '*'.utf8Size = 1 := rfl
    dsimp only
    omega

theorem iterate_agrees [Unicode] (dialect : Dialect) (a : List Char) (c : Char) (l : List Char) :
    Iterates a (c :: l) (iterate dialect (a ++ c :: l) (size a)) (lexeme dialect (c :: l)) := by
  have hbyte : (bytes (a ++ c :: l)).getD (size a) 0 = firstByte c := by
    rw [List.getD_eq_getElem?_getD, Utf8.getElem?_bytes]
    rfl
  rw [iterate, hbyte, lexeme]
  by_cases hblank : isAsciiWhitespace (firstByte c) = true
  · rw [if_pos hblank, if_pos hblank]
    have hsize := Utf8.utf8Size_of_firstByte (lt_of_isAsciiWhitespace hblank)
    exact ⟨[c], rfl, by rw [Utf8.size_append, Utf8.size_cons, hsize]; rfl⟩
  rw [if_neg hblank, if_neg hblank, sliceFrom_append]
  dsimp only [Except.ok_bind]
  by_cases hline : dialect.lineComment.isPrefixOf (c :: l) = true
  · rw [if_pos hline, if_pos hline, stopAt_append]
    exact ⟨_, (List.takeWhile_append_dropWhile).symm, rfl⟩
  rw [if_neg hline, if_neg hline]
  by_cases hcomment : "/*".toList.isPrefixOf (c :: l) = true
  · rw [if_pos hcomment, if_pos hcomment]
    obtain ⟨l, rfl, rfl⟩ : ∃ l', c = '/' ∧ l = '*' :: l' := by
      have heq := eq_append_drop_of_isPrefixOf hcomment
      obtain ⟨hc, hl⟩ := List.cons.inj heq
      exact ⟨_, hc, hl⟩
    exact iterates_comment a l
  rw [if_neg hcomment, if_neg hcomment]
  exact (readToken_agrees dialect a c l).iterates

end Lexer
