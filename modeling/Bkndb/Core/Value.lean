import Bkndb.Basic.Bytes
import Bkndb.Basic.Ieee
import Bkndb.Basic.OrdMap
import Mathlib.Data.String.Basic
import Mathlib.Order.Compare
import Mathlib.Order.CountableDenseLinearOrder

/-!
# Property values

The value type shared by graph properties and relational columns (`value.rs`), with its two
comparisons, the derived equality of the source, and the order-preserving key encoding.

Floating-point numbers are the bit patterns of `Bkndb.Basic.Ieee`, on which the `==` and
`partial_cmp` of `f64`, its `total_cmp` and the rounding of `i64 as f64` are integer computations.

## Three comparisons

* `eqv` is the derived `==`: it compares floats as numbers, so it is not reflexive, and it tells an
  `Int` from a `Float`.
* `compareValues` is partial: values of different kinds do not compare, but for numbers, which are
  compared as floats when one of them is one.
* `totalCmp` ranks the kinds, and takes for equal what does not compare.

None of the three agrees with another on all values, and the engine uses each of them in some
place.

## Keys

Only `Int`, `Timestamp`, `Str` and `Uuid` have a sortable key. Integers and times are written with
the sign bit flipped, most significant byte first, and strings with a NUL behind them, which is why
a string with a NUL in it has no key.
-/

/-- `f32`. -/
abbrev F32 := IeeeFloat Ieee.binary32

/-- `f64`. -/
abbrev F64 := IeeeFloat Ieee.binary64

/-- `i as f64`. -/
def F64.ofInt64 (i : Int64) : F64 := IeeeFloat.ofInt i.toInt

/-- `0.0`. -/
def F64.zero : F64 := IeeeFloat.ofMagnitude false 0

/-! ## Values -/

/-- The UTF-8 bytes of a string. -/
def String.utf8 (s : String) : Bytes := s.toByteArray.data.toList

theorem String.utf8_injective : Function.Injective String.utf8 := by
  intro s t h
  apply String.toByteArray_inj.mp
  apply ByteArray.ext
  exact Array.toList_inj.mp h

theorem String.utf8_append (s t : String) : (s ++ t).utf8 = s.utf8 ++ t.utf8 := by
  rw [String.utf8, String.toByteArray_append]
  simp [String.utf8]

/-- `String::from_utf8`. -/
def fromUtf8 (b : Bytes) : Option String := String.fromUTF8? ⟨b.toArray⟩

theorem fromUtf8_utf8 (s : String) : fromUtf8 s.utf8 = some s := by
  have harr : (⟨s.utf8.toArray⟩ : ByteArray) = s.toByteArray := by
    apply ByteArray.ext
    rw [String.utf8, Array.toArray_toList]
  rw [fromUtf8, harr, String.fromUTF8?, dif_pos s.isValidUTF8]
  rfl

theorem utf8_of_fromUtf8 {b : Bytes} {s : String} (h : fromUtf8 b = some s) : s.utf8 = b := by
  rw [fromUtf8, String.fromUTF8?] at h
  split_ifs at h
  obtain rfl := Option.some.inj h
  rfl

/-- One property or column value. A `map` keeps its entries in key order, as a `BTreeMap` does. -/
inductive PropValue where
  | null
  | bool (b : Bool)
  | int (i : Int64)
  | float (f : F64)
  | str (s : String)
  | bytes (b : Bytes)
  /-- Microseconds since the Unix epoch, UTC. -/
  | timestamp (i : Int64)
  /-- 128 bits, big-endian. -/
  | uuid (u : Vector UInt8 16)
  | list (l : List PropValue)
  | map (m : List (String × PropValue))

instance : Inhabited PropValue := ⟨.null⟩

/-- Named values in key order. -/
abbrev Properties := OrdMap String PropValue

namespace PropValue

/-- `PropValue::Null`. -/
def isNull : PropValue → Bool
  | null => true
  | _ => false

/-- Short name of a value's kind, for error messages. -/
def kindName : PropValue → String
  | null => "null"
  | bool _ => "bool"
  | int _ => "int"
  | float _ => "float"
  | str _ => "str"
  | bytes _ => "bytes"
  | timestamp _ => "timestamp"
  | uuid _ => "uuid"
  | list _ => "list"
  | map _ => "map"

mutual

/-- The derived `==`: structural, except that floats compare as numbers. -/
def eqv : PropValue → PropValue → Bool
  | null, null => true
  | bool a, bool b => a == b
  | int a, int b => a == b
  | float a, float b => a.eqv b
  | str a, str b => a == b
  | bytes a, bytes b => a == b
  | timestamp a, timestamp b => a == b
  | uuid a, uuid b => a == b
  | list a, list b => eqvList a b
  | map a, map b => eqvEntries a b
  | _, _ => false

/-- `==` of two vectors. -/
def eqvList : List PropValue → List PropValue → Bool
  | [], [] => true
  | a :: x, b :: y => eqv a b && eqvList x y
  | _, _ => false

/-- `==` of two maps, entry by entry in key order. -/
def eqvEntries : List (String × PropValue) → List (String × PropValue) → Bool
  | [], [] => true
  | (k, a) :: x, (l, b) :: y => k == l && eqv a b && eqvEntries x y
  | _, _ => false

end

/-- `==` of two optional values. -/
def eqvOption : Option PropValue → Option PropValue → Bool
  | none, none => true
  | some a, some b => eqv a b
  | _, _ => false

mutual

/-- Ordering between two non-null values, or `none` when their kinds are not comparable. `int` and
`float` compare numerically across kinds. -/
def compareValues : PropValue → PropValue → Option Ordering
  | int x, int y => some (cmp x.toInt y.toInt)
  | float x, float y => x.partialCmp y
  | int x, float y => (F64.ofInt64 x).partialCmp y
  | float x, int y => x.partialCmp (F64.ofInt64 y)
  | str x, str y => some (Bytes.cmp x.utf8 y.utf8)
  | bool x, bool y => some (cmp x y)
  | bytes x, bytes y => some (Bytes.cmp x y)
  | timestamp x, timestamp y => some (cmp x.toInt y.toInt)
  | uuid x, uuid y => some (Bytes.cmp x.toList y.toList)
  | list x, list y => compareLists x y
  | map x, map y => if eqvEntries x y then some .eq else none
  | _, _ => none

/-- Lexicographic, element by element; two nulls agree. -/
def compareLists : List PropValue → List PropValue → Option Ordering
  | [], [] => some .eq
  | [], _ :: _ => some .lt
  | _ :: _, [] => some .gt
  | null :: x, null :: y => compareLists x y
  | a :: x, b :: y =>
    match compareValues a b with
    | none => none
    | some .eq => compareLists x y
    | some o => some o

end

/-- The place of a kind in `total_cmp`; nulls and missing values first. -/
def kindRank : Option PropValue → ℕ
  | none | some null => 0
  | some (bool _) => 1
  | some (int _) | some (float _) => 2
  | some (str _) => 3
  | some (bytes _) => 4
  | some (timestamp _) => 5
  | some (uuid _) => 6
  | some (list _) => 7
  | some (map _) => 8

/-- The order over optional values used for sorting and grouping: by kind, then by value. -/
def totalCmp (a b : Option PropValue) : Ordering :=
  (cmp (kindRank a) (kindRank b)).then <|
    match a, b with
    | some (float x), some (float y) => x.totalCmp y
    | some (int x), some (float y) => (F64.ofInt64 x).totalCmp y
    | some (float x), some (int y) => x.totalCmp (F64.ofInt64 y)
    | some x, some y => (compareValues x y).getD .eq
    | _, _ => .eq

/-- `str::parse::<usize>`: an optional `+`, then decimal digits, below `2 ^ 64`. -/
def parseUsize (s : String) : Option ℕ :=
  let digits := match s.toList with
    | '+' :: l => l
    | l => l
  if digits.isEmpty || !digits.all Char.isDigit then none
  else
    let n := digits.foldl (fun n c ↦ 10 * n + (c.toNat - '0'.toNat)) 0
    if n < 2 ^ 64 then some n else none

/-- Look up a nested value: map keys by name, list elements by decimal index. -/
def getPath : PropValue → List String → Option PropValue
  | v, [] => some v
  | map m, seg :: path => ((m.find? (·.1 == seg)).map Prod.snd).bind (getPath · path)
  | list l, seg :: path => ((parseUsize seg).bind (l[·]?)).bind (getPath · path)
  | _, _ :: _ => none

/-! ## Sortable keys

The order of the keys is the order of the values within one kind. Across kinds nothing is promised:
the key of an integer may be that of a string. -/

/-- The sign bit flipped, so that unsigned order is signed order. -/
def flipSign (i : Int64) : UInt64 := i.toUInt64 ^^^ 0x8000000000000000

/-- Order-preserving byte encoding of a key value; `none` for kinds that are not keyable and for
strings with a NUL byte. -/
def sortableKey : PropValue → Option Bytes
  | int i | timestamp i => some (Bytes.be 8 (flipSign i).toNat)
  | str s => if s.utf8.contains 0 then none else some (s.utf8 ++ [0])
  | uuid u => some u.toList
  | _ => none

theorem toNat_flipSign (i : Int64) : (flipSign i).toNat = (i.toInt + 2 ^ 63).toNat := by
  have hlt : i.toUInt64.toNat < 2 ^ 64 := i.toUInt64.toNat_lt
  have hint : i.toInt = if 2 * i.toUInt64.toNat < 2 ^ 64 then (i.toUInt64.toNat : ℤ)
      else i.toUInt64.toNat - 2 ^ 64 := BitVec.toInt_eq_toNat_cond _
  have hxor : (flipSign i).toNat = i.toUInt64.toNat ^^^ 2 ^ 63 := UInt64.toNat_xor ..
  have hmod : (i.toUInt64.toNat ^^^ 2 ^ 63) % 2 ^ 63 = i.toUInt64.toNat % 2 ^ 63 := by
    rw [Nat.xor_mod_two_pow, Nat.mod_self, Nat.xor_zero]
  have hdiv : (i.toUInt64.toNat ^^^ 2 ^ 63) / 2 ^ 63 = i.toUInt64.toNat / 2 ^ 63 ^^^ 1 := by
    rw [Nat.xor_div_two_pow, Nat.div_self (by positivity)]
  have hsplit := Nat.div_add_mod (i.toUInt64.toNat ^^^ 2 ^ 63) (2 ^ 63)
  rw [hmod, hdiv] at hsplit
  rw [hxor, hint]
  -- the quotient is the old sign bit, so the two cases compute
  by_cases hneg : i.toUInt64.toNat < 2 ^ 63
  · rw [Nat.div_eq_of_lt hneg, Nat.zero_xor] at hsplit
    rw [if_pos (by omega)]
    omega
  · have hone : i.toUInt64.toNat / 2 ^ 63 = 1 := by omega
    rw [hone, Nat.xor_self] at hsplit
    rw [if_neg (by omega)]
    omega

/-- **Integer keys are ordered as the integers.** -/
theorem be_flipSign_lt_iff (i j : Int64) :
    Bytes.be 8 (flipSign i).toNat < Bytes.be 8 (flipSign j).toNat ↔ i.toInt < j.toInt := by
  rw [Bytes.be_lt_be_iff (flipSign i).toNat_lt (flipSign j).toNat_lt, toNat_flipSign,
    toNat_flipSign]
  have hi := i.le_toInt
  have hj := j.le_toInt
  omega

theorem be_flipSign_injective :
    Function.Injective fun i : Int64 ↦ Bytes.be 8 (flipSign i).toNat := by
  intro i j h
  have hi := (be_flipSign_lt_iff i j).not.mp (by simp only at h; rw [h]; exact lt_irrefl _)
  have hj := (be_flipSign_lt_iff j i).not.mp (by simp only at h; rw [h]; exact lt_irrefl _)
  exact Int64.toInt.inj (le_antisymm (not_lt.mp hj) (not_lt.mp hi))

/-- Terminated strings are ordered as the strings when neither holds the terminator. -/
theorem terminated_lt_iff {s t : Bytes} (hs : 0 ∉ s) (ht : 0 ∉ t) :
    s ++ [0] < t ++ [0] ↔ s < t := by
  induction s generalizing t with
  | nil =>
    cases t with
    | nil => simp
    | cons b t =>
      have hb : (0 : UInt8) < b := by
        have hne : b ≠ 0 := fun h ↦ ht (by simp [h])
        exact lt_of_le_of_ne (UInt8.le_iff_toNat_le.mpr (Nat.zero_le _)) (Ne.symm hne)
      constructor
      · intro _
        exact List.nil_lt_cons b t
      · intro _
        exact Bytes.cons_lt_cons.mpr (Or.inl hb)
  | cons a s ih =>
    have ha : (0 : UInt8) < a := by
      have hne : a ≠ 0 := fun h ↦ hs (by simp [h])
      exact lt_of_le_of_ne (UInt8.le_iff_toNat_le.mpr (Nat.zero_le _)) (Ne.symm hne)
    cases t with
    | nil =>
      constructor
      · intro h
        rcases Bytes.cons_lt_cons.mp h with h | ⟨h, -⟩
        · exact absurd (lt_trans h ha) (lt_irrefl _)
        · exact absurd (h ▸ ha) (lt_irrefl _)
      · intro h
        exact absurd h (Bytes.not_lt_nil _)
    | cons b t =>
      have hs' : (0 : UInt8) ∉ s := fun h ↦ hs (List.mem_cons_of_mem _ h)
      have ht' : (0 : UInt8) ∉ t := fun h ↦ ht (List.mem_cons_of_mem _ h)
      rw [List.cons_append, List.cons_append, Bytes.cons_lt_cons, Bytes.cons_lt_cons, ih hs' ht']

end PropValue
