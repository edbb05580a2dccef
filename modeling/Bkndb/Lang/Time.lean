import Bkndb.Basic.Calendar
import Bkndb.Basic.Digits
import Bkndb.Basic.Utf8
import Bkndb.Core.Error

/-!
# Timestamp literals

The parser of `TIMESTAMP '..'` literals (`lang/time.rs`), and the texts it takes. `Stamp` is the text
of a timestamp by its fields. The documented form gives every field its width; the parser takes
fields of any width as long as the date has ten characters in all, a dot without a fraction, and
only fractions below `2 ^ 63`. A text that is longer than ten bytes and whose tenth byte ends
inside a character is a panic, and so is a date too late for its microseconds.

## What is exact

The microseconds of a timestamp are computed here from a count of days over the calendar and not
from the algorithm of the source; that the two agree is proved, not assumed. `Stamp.render` is the
text of a timestamp, whatever the widths of its fields are, and `Stamp.Proper` says that they spell
a real date and a time in range.
-/

namespace Timestamp

/-! ## The parser -/

/-- Days since the epoch for a date. -/
def daysFromCivil (y m d : ℤ) : ℤ :=
  let y := if m ≤ 2 then y - 1 else y
  let era := (if 0 ≤ y then y else y - 399).tdiv 400
  let yoe := y - era * 400
  let mp := (m + 9).tmod 12
  let doy := (153 * mp + 2).tdiv 5 + d - 1
  let doe := yoe * 365 + yoe.tdiv 4 - yoe.tdiv 100 + doy
  era * 146097 + doe - 719468

/-- The days of a month. -/
def daysInMonth (y m : ℤ) : ℤ :=
  if m = 1 ∨ m = 3 ∨ m = 5 ∨ m = 7 ∨ m = 8 ∨ m = 10 ∨ m = 12 then 31
  else if m = 4 ∨ m = 6 ∨ m = 9 ∨ m = 11 then 30
  else if (y.tmod 4 = 0 ∧ y.tmod 100 ≠ 0) ∨ y.tmod 400 = 0 then 29
  else 28

/-- A number of digits alone, below `2 ^ 63`. -/
def num (s : List Char) : Option ℤ :=
  if s ≠ [] ∧ s.all Char.isDigit then (Digits.parseInt64 s).map Int64.toInt else none

/-- `str::split_once`. -/
def splitOnce (c : Char) (s : List Char) : Option (List Char × List Char) :=
  if c ∈ s then some (s.takeWhile (· != c), (s.dropWhile (· != c)).tail) else none

/-- The text around its last character with a property: `str::rfind` and `str::split_at`. -/
def splitLast (p : Char → Bool) : List Char → Option (List Char × Char × List Char)
  | [] => none
  | c :: s => match splitLast p s with
    | some (a, d, b) => some (c :: a, d, b)
    | none => if p c then some ([], c, s) else none

/-- The year, month and day of a date. -/
def parseDate (date : List Char) : Option (ℤ × ℤ × ℤ) := do
  let parts := date.splitOn '-'
  let y ← num (← parts[0]?)
  let m ← num (← parts[1]?)
  let d ← num (← parts[2]?)
  if parts[3]?.isSome ∨ Utf8.size date ≠ 10 ∨ ¬ (1 ≤ m ∧ m ≤ 12) ∨ d < 1 ∨ daysInMonth y m < d then
    none
  else some (y, m, d)

/-- What comes after the date, without the separator. -/
def stripSeparator : List Char → Option (List Char)
  | [] => none
  | c :: rest => if c = 'T' ∨ c = 't' ∨ c = ' ' then some rest else none

/-- A sign of an offset. -/
def isSign (c : Char) : Bool := c == '+' || c == '-'

/-- The clock time, and the offset in microseconds. -/
def splitOffset (rest : List Char) : Option (List Char × ℤ) :=
  if rest.getLast? = some 'Z' ∨ rest.getLast? = some 'z' then some (rest.dropLast, 0)
  else match splitLast isSign rest with
    | some (clock, sign, off) => do
      let (oh, om) ← splitOnce ':' off
      let oh ← num oh
      let om ← num om
      if 23 < oh ∨ 59 < om then none
      else some (clock, (if sign = '-' then -1 else 1) * (oh * 3600 + om * 60) * 1000000)
    | none => some (rest, 0)

/-- The seconds of a clock time, and the digits of their fraction. -/
def parseSeconds : Option (List Char) → Option (ℤ × List Char)
  | none => some (0, [])
  | some sf => match splitOnce '.' sf with
    | some (s, f) => (num s).map (·, f)
    | none => (num sf).map (·, [])

/-- The microseconds that the digits of a fraction stand for. -/
def parseFraction (frac : List Char) : Option ℤ :=
  if frac = [] then some 0
  else do
    let _ ← num frac
    (Digits.parseInt64 ((frac ++ List.replicate 6 '0').take 6)).map Int64.toInt

/-- The microseconds of a clock time. -/
def parseClock (clock : List Char) : Option ℤ := do
  let fields := clock.splitOn ':'
  let h ← num (← fields[0]?)
  let mi ← num (← fields[1]?)
  let (sec, frac) ← parseSeconds fields[2]?
  if fields[3]?.isSome ∨ 23 < h ∨ 59 < mi ∨ 59 < sec then none
  else return ((h * 60 + mi) * 60 + sec) * 1000000 + (← parseFraction frac)

/-- What comes after the date: the microseconds of the clock time, and of the offset. -/
def parseTime (rest : List Char) : Option (ℤ × ℤ) := do
  let (clock, offset) ← splitOffset (← stripSeparator rest)
  return (← parseClock clock, offset)

/-- An operation on `i64`: an overflow panics. -/
def checked (z : ℤ) : Except BknError ℤ :=
  if Int64.Fits z then .ok z else .error (.panic "attempt to calculate with overflow")

/-- The text of the date, and what comes after it. -/
def splitDate (s : List Char) : Except BknError (List Char × List Char) :=
  if 10 < Utf8.size s then .ofOption (.panic "failed to slice string") (Utf8.splitAt s 10)
  else .ok (s, [])

/-- The microseconds of a day and what comes after its date. The fields of the time are small once
they are checked, and only the microseconds of a late day can overflow. -/
def addTime (days : ℤ) (rest : List Char) : Except BknError (Option Int64) := do
  let micros ← checked (days * 86400000000)
  if rest = [] then return some (.ofInt micros)
  match parseTime rest with
  | none => return none
  | some (time, offset) => return Int64.tryFrom ((← checked (micros + time)) - offset)

/-- The microseconds since the epoch of a timestamp, in UTC if it has no offset. -/
def parseTimestamp (text : List Char) : Except BknError (Option Int64) := do
  let (date, rest) ← splitDate (trim text)
  match parseDate date with
  | none => return none
  | some (y, m, d) => addTime (daysFromCivil y m d) rest

/-! ## The fields of a timestamp

These definitions do not use the parser. They say which texts are timestamps and which instants
they name. -/

/-- The offset of a timestamp. -/
inductive Zone where
  | local
  /-- `Z` or `z`. -/
  | utc (c : Char)
  /-- A sign, and hours and minutes. -/
  | offset (sign : Char) (hour minute : List Char)

/-- A clock time. -/
structure Clock where
  hour : List Char
  minute : List Char
  /-- The seconds, and the fraction after the dot if there is one. -/
  second : Option (List Char × Option (List Char))

/-- The time of day of a timestamp. -/
structure Time where
  separator : Char
  clock : Clock
  zone : Zone

/-- A timestamp by its fields. -/
structure Stamp where
  year : List Char
  month : List Char
  day : List Char
  time : Option Time

def Zone.render : Zone → List Char
  | .local => []
  | .utc c => [c]
  | .offset sign hour minute => sign :: (hour ++ ':' :: minute)

/-- The seconds and the fraction. -/
def renderSeconds : List Char × Option (List Char) → List Char
  | (s, none) => s
  | (s, some f) => s ++ '.' :: f

def Clock.render (k : Clock) : List Char :=
  k.hour ++ ':' :: (k.minute ++ match k.second with
    | none => []
    | some s => ':' :: renderSeconds s)

def Time.render (t : Time) : List Char := t.separator :: (t.clock.render ++ t.zone.render)

/-- The date of a timestamp. -/
def Stamp.date (s : Stamp) : List Char := s.year ++ '-' :: (s.month ++ '-' :: s.day)

/-- The text of a timestamp. -/
def Stamp.render (s : Stamp) : List Char :=
  s.date ++ match s.time with
    | none => []
    | some t => t.render

/-- A field of digits. -/
def Digital (l : List Char) : Prop := l ≠ [] ∧ ∀ c ∈ l, c.isDigit = true

instance (l : List Char) : Decidable (Digital l) :=
  @instDecidableAnd _ _ _ (List.decidableBAll _ l)

/-- The number a field spells. -/
def number (l : List Char) : ℕ := (Digits.ofChars 10 l).getD 0

/-- A field of digits for a number in range. -/
def InRange (l : List Char) (bound : ℕ) : Prop := Digital l ∧ number l ≤ bound

instance (l : List Char) (bound : ℕ) : Decidable (InRange l bound) :=
  inferInstanceAs (Decidable (_ ∧ _))

/-- An offset in range. -/
def Zone.Proper : Zone → Prop
  | .local => True
  | .utc c => c = 'Z' ∨ c = 'z'
  | .offset sign hour minute => (sign = '+' ∨ sign = '-') ∧ InRange hour 23 ∧ InRange minute 59

/-- Seconds in range, and a fraction of digits. -/
def SecondsProper : Option (List Char × Option (List Char)) → Prop
  | none => True
  | some (s, none) => InRange s 59
  | some (s, some f) => InRange s 59 ∧ ∀ c ∈ f, c.isDigit = true

/-- A clock time in range. -/
def Clock.Proper (k : Clock) : Prop :=
  InRange k.hour 23 ∧ InRange k.minute 59 ∧ SecondsProper k.second

def Time.Proper (t : Time) : Prop :=
  (t.separator = 'T' ∨ t.separator = 't' ∨ t.separator = ' ') ∧ t.clock.Proper ∧ t.zone.Proper

/-- A timestamp of a real date, with its fields in range. -/
def Stamp.Proper (s : Stamp) : Prop :=
  Digital s.year ∧ Digital s.month ∧ Digital s.day ∧
    Calendar.IsDate (number s.year) (number s.month) (number s.day) ∧
    ∀ t, s.time = some t → t.Proper

/-- The microseconds east of UTC. -/
def Zone.micros : Zone → ℤ
  | .local | .utc _ => 0
  | .offset sign hour minute =>
    (if sign = '-' then -1 else 1) * (number hour * 3600 + number minute * 60) * 1000000

/-- The microseconds of a fraction, truncated. -/
def fractionMicros (f : List Char) : ℕ := number f * 10 ^ 6 / 10 ^ f.length

def secondsMicros : Option (List Char × Option (List Char)) → ℤ
  | none => 0
  | some (s, none) => number s * 1000000
  | some (s, some f) => number s * 1000000 + fractionMicros f

/-- The microseconds of a clock time. -/
def Clock.micros (k : Clock) : ℤ :=
  (number k.hour * 60 + number k.minute) * 60 * 1000000 + secondsMicros k.second

/-- The microseconds since the first of 1970. -/
def Stamp.micros (s : Stamp) : ℤ :=
  Calendar.daysSince1970 (number s.year) (number s.month) (number s.day) * 86400000000 +
    match s.time with
    | none => 0
    | some t => t.clock.micros - t.zone.micros

end Timestamp
