import Bkndb.Core.Text
import Bkndb.Lang.Hex

/-!
# The tokenizer

The tokenizer shared by the SQL and graph languages (`lang/lexer.rs`). It walks over the bytes of
the source: one iteration of its loop reads the blank, comment or token at a byte offset and gives
the offset after it.

The branches for words and parameters go on by characters, and the branches for numbers and quotes
by bytes. `lexeme` says what the iteration does in terms of the characters that are left, and
`lexeme_agrees` that it does so at every offset between two characters.

## The offsets

Positions are offsets into the encoding of the source, and slices are taken with `&source[i..j]`,
which panics inside a character. The model keeps the offsets and the panics.

## Numbers

A number with a fraction or an exponent is a `Float`, rounded to nearest from its decimal; one
without is an `Int`, and an error if it does not fit 64 bits. There is no sign in front of a
number.
-/

/-! ## Tokens -/

/-- A token. -/
inductive Tok where
  /-- An identifier or keyword, as written. -/
  | ident (w : String)
  /-- A quoted identifier, which is never a keyword. -/
  | quotedIdent (w : String)
  | int (i : Int64)
  | float (x : F64)
  | str (s : String)
  | bytes (b : Bytes)
  /-- `?`, numbered from left to right. -/
  | param
  /-- `?3` or `$3`, counted from one. -/
  | numberedParam (n : ℕ)
  /-- `:name` or `$name`. -/
  | namedParam (n : String)
  /-- Punctuation. -/
  | sym (s : String)

/-- A token and its byte offset in the source. -/
structure Token where
  tok : Tok
  pos : ℕ

/-- Which marker a line comment has. -/
inductive Dialect where
  | sql
  | graph
  deriving DecidableEq, Repr

/-- SQL's `--`, or the `//` of graph patterns, where `--` is a relationship. -/
def Dialect.lineComment : Dialect → List Char
  | sql => "--".toList
  | graph => "//".toList

/-- Punctuation, longer symbols first. -/
def symbols : List String :=
  ["->", "<-", "==", "!=", "<>", "<=", ">=", "(", ")", "[", "]", "\x7b", "\x7d", ",", ".", ";", "*", "=",
    "<", ">", "-", "|"]

/-- An error that names the line and column of an offset. -/
def errAt (src : List Char) (pos : ℕ) (message : String) : BknError :=
  match Utf8.splitAt src (min pos (Utf8.size src)) with
  | none => .panic "byte index is not a char boundary"
  | some (before, _) =>
    let line := before.count '\n' + 1
    let column := (before.rtakeWhile (· != '\n')).length + 1
    .invalidQuery (s!"{message} (at line {line}, column {column})" : String)

/-! ## Decimals -/

/-- The number nearest to `m * 10 ^ e`. -/
def F64.ofDecimal (m : ℕ) (e : ℤ) : F64 :=
  if 0 ≤ e then .pack false (m * 10 ^ e.toNat) 0
  else
    -- a quotient with enough places, and a sticky bit below them for the remainder
    let d := 10 ^ (-e).toNat
    let k := 55 + Nat.log2 d
    let n := m * 2 ^ k
    .pack false (2 * (n / d) + if n % d = 0 then 0 else 1) (-k - 1)

/-- `str::parse::<f64>` of digits, with a fraction and an exponent or without. -/
def parseF64 (text : List Char) : Option F64 := do
  let mantissa := text.takeWhile fun c ↦ !(c == 'e' || c == 'E')
  let whole := mantissa.takeWhile (· != '.')
  let fraction := mantissa.drop (whole.length + 1)
  let m ← Digits.ofChars 10 (whole ++ fraction)
  let e ← match text.drop mantissa.length with
    | [] => some (0 : ℤ)
    | _ :: '-' :: l => (Digits.ofChars 10 l).map fun n ↦ -(n : ℤ)
    | _ :: '+' :: l => (Digits.ofChars 10 l).map Nat.cast
    | _ :: l => (Digits.ofChars 10 l).map Nat.cast
  return F64.ofDecimal m (e - fraction.length)

namespace Lexer

/-! ## Classes of bytes -/

/-- `u8::is_ascii_whitespace`. -/
def isAsciiWhitespace (b : UInt8) : Bool := b == 0x20 || b == 0x9 || b == 0xA || b == 0xC || b == 0xD

/-- `u8::is_ascii_alphabetic`. -/
def isAsciiAlphabetic (b : UInt8) : Bool := (0x41 ≤ b && b ≤ 0x5A) || (0x61 ≤ b && b ≤ 0x7A)

/-- `u8::is_ascii_digit`. -/
def isAsciiDigit (b : UInt8) : Bool := 0x30 ≤ b && b ≤ 0x39

/-- What a parameter's name begins with. -/
def isNameStart (b : UInt8) : Bool := isAsciiAlphabetic b || b == '_'.toUInt8

/-- What a word is made of. -/
def isWordChar [Unicode] (c : Char) : Bool := Unicode.isAlphanumeric c || c == '_'

/-! ## Numbers -/

/-- The offset after a run of digits. -/
def digitsEnd (bytes : Bytes) (i : ℕ) : ℕ := i + ((bytes.drop i).takeWhile isAsciiDigit).length

/-- The end of a number after its fraction, if there is one. -/
def fractionEnd (bytes : Bytes) (i : ℕ) : ℕ × Bool :=
  if bytes[i]? == some '.'.toUInt8 && bytes[i + 1]?.any isAsciiDigit then
    (digitsEnd bytes (i + 1), true)
  else (i, false)

/-- The end of a number after its exponent, if there is one. -/
def exponentEnd (bytes : Bytes) (i : ℕ) (isFloat : Bool) : ℕ × Bool :=
  if bytes[i]?.any fun b ↦ b == 'e'.toUInt8 || b == 'E'.toUInt8 then
    let e := if bytes[i + 1]?.any fun b ↦ b == '+'.toUInt8 || b == '-'.toUInt8 then i + 2 else i + 1
    if bytes[e]?.any isAsciiDigit then (digitsEnd bytes e, true) else (i, isFloat)
  else (i, isFloat)

/-- A number. -/
def readNumber (src : List Char) (i : ℕ) : Except BknError (Tok × ℕ) := do
  let bytes := Utf8.bytes src
  let fraction := fractionEnd bytes (digitsEnd bytes i)
  let number := exponentEnd bytes fraction.1 fraction.2
  let text ← sliceText src i number.1
  if number.2 then
    let x ← .ofOption (errAt src i "invalid number") (parseF64 text)
    return (.float x, number.1)
  else
    let n ← .ofOption (errAt src i s!"integer {String.ofList text} is out of range")
      (Digits.parseInt64 text)
    return (.int n, number.1)

/-! ## Quotes, words and parameters -/

/-- The loop of `read_quoted` at the offset `i`, before the given bytes; what stands from `run` on
is not copied yet. -/
def readQuotedFrom (src : List Char) (start : ℕ) (q : Char) (i run : ℕ) (out : List Char) :
    Bytes → Except BknError (List Char × ℕ)
  | [] => .error (errAt src start "unterminated quoted text")
  | b :: rest =>
    if b = q.toUInt8 then do
      let out := out ++ (← sliceText src run i)
      match rest with
      | [] => return (out, i + 1)
      | b' :: rest' =>
        if b' = q.toUInt8 then readQuotedFrom src start q (i + 2) (i + 2) (out ++ [q]) rest'
        else return (out, i + 1)
    else readQuotedFrom src start q (i + 1) run out rest

/-- A quoted run, in which a doubled quote stands for one, and the offset after it. -/
def readQuoted (src : List Char) (start : ℕ) (q : Char) : Except BknError (List Char × ℕ) :=
  readQuotedFrom src start q (start + 1) (start + 1) [] ((Utf8.bytes src).drop (start + 1))

/-- The offset of the first character with a property in `rest`, which stands at the offset `i`, or
of the end of the source. -/
def stopAt (p : Char → Bool) (src : List Char) (i : ℕ) (rest : List Char) : ℕ :=
  match Utf8.find p rest with
  | some n => i + n
  | none => Utf8.size src

/-- The word at an offset, and the offset after it. -/
def readWord [Unicode] (src : List Char) (i : ℕ) : Except BknError (String × ℕ) := do
  let stop := stopAt (fun c ↦ !isWordChar c) src i (← sliceFrom src i)
  return (.ofList (← sliceText src i stop), stop)

/-- A bytes literal. -/
def readBytes (src : List Char) (i : ℕ) : Except BknError (Tok × ℕ) := do
  let (s, stop) ← readQuoted src (i + 1) '\''
  let b ← .ofOption (errAt src i "invalid hex in x'...' literal") (← Hex.decodeHex s)
  return (.bytes b, stop)

/-- A positional or numbered parameter. -/
def readParam (src : List Char) (i : ℕ) (c : UInt8) : Except BknError (Tok × ℕ) := do
  let stop := digitsEnd (Utf8.bytes src) (i + 1)
  let digits ← sliceText src (i + 1) stop
  if digits = [] then
    if c = '$'.toUInt8 then throw (errAt src i "expected a parameter number after '$'")
    return (.param, stop)
  else
    let n ← .ofOption (errAt src i "parameter number out of range")
      (Digits.parseUnsigned 10 (2 ^ 64) digits)
    if n = 0 then throw (errAt src i "parameters are numbered from 1")
    return (.numberedParam n, stop)

/-! ## The loop -/

/-- The token at an offset whose byte is `c`, and the offset after it. -/
def readToken [Unicode] (dialect : Dialect) (src : List Char) (i : ℕ) (c : UInt8) :
    Except BknError (Tok × ℕ) := do
  let next := (Utf8.bytes src)[i + 1]?
  if isAsciiAlphabetic c || c == '_'.toUInt8 || 0x80 ≤ c then
    if (c == 'x'.toUInt8 || c == 'X'.toUInt8) && next == some '\''.toUInt8 then readBytes src i
    else return (← readWord src i).map .ident id
  else if isAsciiDigit c then readNumber src i
  else if c = '\''.toUInt8 then return (← readQuoted src i '\'').map (.str ∘ .ofList) id
  else if c = '"'.toUInt8 || c = 0x60 then
    return (← readQuoted src i (.ofNat c.toNat)).map (.quotedIdent ∘ .ofList) id
  else if c = '$'.toUInt8 && next.any isNameStart then
    return (← readWord src (i + 1)).map .namedParam id
  else if c = '?'.toUInt8 || c = '$'.toUInt8 then readParam src i c
  else if c = ':'.toUInt8 && dialect == .sql && next.any isNameStart then
    return (← readWord src (i + 1)).map .namedParam id
  else if c = ':'.toUInt8 then return (.sym ":", i + 1)
  else
    let rest ← sliceFrom src i
    match symbols.find? fun s ↦ s.toList.isPrefixOf rest with
    | some s => return (.sym s, i + Utf8.size s.toList)
    | none =>
      let c := (rest.head?).getD '?'
      throw (errAt src i s!"unexpected character '{c}'")

/-- One iteration of the loop at an offset before the end: the offset it leads to, and the token it
adds. -/
def iterate [Unicode] (dialect : Dialect) (src : List Char) (i : ℕ) :
    Except BknError (ℕ × Option Token) := do
  let c := (Utf8.bytes src).getD i 0
  if isAsciiWhitespace c then return (i + 1, none)
  let rest ← sliceFrom src i
  if dialect.lineComment.isPrefixOf rest then
    return (stopAt (· == '\n') src i rest, none)
  if "/*".toList.isPrefixOf rest then
    let n ← .ofOption (errAt src i "unterminated comment")
      (Utf8.findText "*/".toList (← sliceFrom src (i + 2)))
    return (i + 2 + n + 2, none)
  let (tok, stop) ← readToken dialect src i c
  return (stop, some ⟨tok, i⟩)

/-- The loop from an offset on, if a number of iterations is enough for it. -/
def tokenizeFrom [Unicode] (dialect : Dialect) (src : List Char) :
    ℕ → ℕ → List Token → Option (Except BknError (List Token))
  | 0, _, _ => none
  | fuel + 1, i, out =>
    if i < Utf8.size src then
      match iterate dialect src i with
      | .error e => some (.error e)
      | .ok (j, tok) => tokenizeFrom dialect src fuel j (out ++ tok.toList)
    else some (.ok out)

/-- The tokens of a source, if a number of iterations is enough. -/
def tokenize [Unicode] (dialect : Dialect) (src : List Char) (fuel : ℕ) :
    Option (Except BknError (List Token)) := tokenizeFrom dialect src fuel 0 []

end Lexer
