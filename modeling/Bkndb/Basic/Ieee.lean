import Mathlib.Algebra.Group.Int.Defs
import Mathlib.Algebra.Group.Nat.Defs
import Mathlib.Data.Nat.Log
import Mathlib.Data.Nat.Sqrt

/-!
# Binary floating point as bit patterns

The binary interchange formats of IEEE 754, computed on bit patterns: a finite number is unpacked
into a sign, an integer significand and a power of two, the operations are exact on those, and
`pack` rounds the result once, to nearest with ties to even. Comparison never rounds, so it is
a comparison of integers read off the bits.

## Bits, not reals

A number is its bit pattern, so that two NaNs with different payloads are two numbers, and the
total order, which looks at the bits, is a function of the number. Conversions and arithmetic are
computed with integers: a finite number is `m * 2 ^ e`, the exact result of an operation is again
of that form (with a sticky bit where a quotient or a root does not end), and one rounding step
makes a bit pattern of it.

## What is proved

The order facts that a sort needs are proved in this module and the next; the arithmetic is there
to be run. Nothing depends on how a sum or a product rounds, except that the same expression gives
the same bits.
-/

namespace Ieee

/-- A binary interchange format. -/
structure Format where
  /-- Width of the exponent field. -/
  expBits : ℕ
  /-- Width of the fraction field. -/
  fracBits : ℕ

namespace Format

variable (f : Format)

/-- Sign, exponent and fraction. -/
def width : ℕ := 1 + f.expBits + f.fracBits

/-- The exponent bias. -/
def bias : ℤ := 2 ^ (f.expBits - 1) - 1

/-- The magnitude bits of infinity: exponent all ones, fraction zero. -/
def infinity : ℕ := (2 ^ f.expBits - 1) * 2 ^ f.fracBits

end Format

/-- Single precision. -/
def binary32 : Format := ⟨8, 23⟩

/-- Double precision. -/
def binary64 : Format := ⟨11, 52⟩

end Ieee

/-- A floating-point number in the format `f`. -/
structure IeeeFloat (f : Ieee.Format) where
  bits : BitVec f.width
  deriving DecidableEq

namespace IeeeFloat

open Ieee

variable {f g : Format}

/-- The bits below the sign bit. -/
def magnitude (x : IeeeFloat f) : ℕ := x.bits.toNat % 2 ^ (f.expBits + f.fracBits)

/-- Whether the sign bit is set. -/
def negative (x : IeeeFloat f) : Bool := decide (2 ^ (f.expBits + f.fracBits) ≤ x.bits.toNat)

/-- Exponent all ones and a nonzero fraction. -/
def isNaN (x : IeeeFloat f) : Bool := decide (f.infinity < x.magnitude)

/-- Neither infinite nor NaN. -/
def isFinite (x : IeeeFloat f) : Bool := decide (x.magnitude < f.infinity)

/-- Put a sign and magnitude bits together. -/
def ofMagnitude (neg : Bool) (m : ℕ) : IeeeFloat f :=
  ⟨.ofNat _ (m + if neg then 2 ^ (f.expBits + f.fracBits) else 0)⟩

/-- A quiet NaN. -/
def nan : IeeeFloat f := ofMagnitude false (f.infinity + 2 ^ (f.fracBits - 1))

/-! ## Comparison

Two orders: the numeric one, in which zeros tie and a NaN compares with nothing, and the total one
of the bit patterns. Each is the order of an integer read off the bits, which is why laws of
comparison reduce to laws of integers. -/

/-- An integer ordered as the numbers that are not NaN; both zeros give `0`. -/
def rank (x : IeeeFloat f) : ℤ := if x.negative then -(x.magnitude : ℤ) else x.magnitude

/-- An integer ordered as the `totalOrder` predicate orders bit patterns. -/
def totalRank (x : IeeeFloat f) : ℤ := if x.negative then -(x.magnitude : ℤ) - 1 else x.magnitude

/-- Numeric comparison; a NaN compares with nothing. -/
def partialCmp (x y : IeeeFloat f) : Option Ordering :=
  if x.isNaN || y.isNaN then none else some (compare x.rank y.rank)

/-- The total order of the bit patterns. -/
def totalCmp (x y : IeeeFloat f) : Ordering := compare x.totalRank y.totalRank

/-- Numeric equality. -/
def eqv (x y : IeeeFloat f) : Bool := x.partialCmp y == some .eq

/-! ## Rounding -/

/-- Significand and exponent of a finite number, whose absolute value is `m * 2 ^ e`. -/
def unpack (x : IeeeFloat f) : ℕ × ℤ :=
  let e := x.magnitude / 2 ^ f.fracBits
  let frac := x.magnitude % 2 ^ f.fracBits
  if e = 0 then (frac, 1 - f.bias - f.fracBits)
  else (2 ^ f.fracBits + frac, e - f.bias - f.fracBits)

/-- `m / 2 ^ s` rounded to nearest, ties to even. -/
def shiftRound (m s : ℕ) : ℕ :=
  let q := m / 2 ^ s
  let r := m % 2 ^ s
  if 2 ^ s < 2 * r ∨ (2 * r = 2 ^ s ∧ q % 2 = 1) then q + 1 else q

/-- The number nearest to `m * 2 ^ e`. A significand that rounds up to the next power of two carries
into the exponent, and past the largest exponent the result is infinite. -/
def pack (neg : Bool) (m : ℕ) (e : ℤ) : IeeeFloat f :=
  if m = 0 then ofMagnitude neg 0
  else
    let q : ℤ := max (Nat.log2 m + e - f.fracBits) (1 - f.bias - f.fracBits)
    let mant := if q ≤ e then m * 2 ^ (e - q).toNat else shiftRound m (q - e).toNat
    ofMagnitude neg (min ((q + f.fracBits + f.bias - 1).toNat * 2 ^ f.fracBits + mant) f.infinity)

/-- Conversion between formats. -/
def convert (x : IeeeFloat f) : IeeeFloat g :=
  if x.isNaN then nan
  else if x.isFinite then pack x.negative x.unpack.1 x.unpack.2
  else ofMagnitude x.negative g.infinity

/-- Conversion from an integer. -/
def ofInt (i : ℤ) : IeeeFloat f := pack (decide (i < 0)) i.natAbs 0

/-! ## Arithmetic -/

/-- Negation flips the sign bit, of a NaN too. -/
def neg (x : IeeeFloat f) : IeeeFloat f := ofMagnitude (!x.negative) x.magnitude

/-- Multiplication. -/
def mul (x y : IeeeFloat f) : IeeeFloat f :=
  let s := x.negative ^^ y.negative
  if x.isNaN || y.isNaN then nan
  else if x.isFinite && y.isFinite then
    pack s (x.unpack.1 * y.unpack.1) (x.unpack.2 + y.unpack.2)
  else if x.magnitude = 0 ∨ y.magnitude = 0 then nan
  else ofMagnitude s f.infinity

/-- Addition. -/
def add (x y : IeeeFloat f) : IeeeFloat f :=
  if x.isNaN || y.isNaN then nan
  else if x.isFinite && y.isFinite then
    let e := min x.unpack.2 y.unpack.2
    let scaled (z : IeeeFloat f) : ℤ :=
      (if z.negative then -1 else 1) * (z.unpack.1 * 2 ^ (z.unpack.2 - e).toNat : ℕ)
    let sum := scaled x + scaled y
    -- an exact zero is negative only when both terms are
    pack (if sum = 0 then x.negative && y.negative else decide (sum < 0)) sum.natAbs e
  else if x.isFinite then y
  else if y.isFinite then x
  else if x.negative = y.negative then x
  else nan

/-- Division. The quotient carries a sticky bit below its last place, which is all that rounding
needs to know of the remainder. -/
def div (x y : IeeeFloat f) : IeeeFloat f :=
  let s := x.negative ^^ y.negative
  if x.isNaN || y.isNaN then nan
  else if x.isFinite then
    if y.isFinite then
      if y.magnitude = 0 then if x.magnitude = 0 then nan else ofMagnitude s f.infinity
      else
        let k := f.fracBits + 3 + Nat.log2 y.unpack.1
        let n := x.unpack.1 * 2 ^ k
        let q := 2 * (n / y.unpack.1) + if n % y.unpack.1 = 0 then 0 else 1
        pack s q (x.unpack.2 - y.unpack.2 - k - 1)
    else ofMagnitude s 0
  else if y.isFinite then ofMagnitude s f.infinity
  else nan

/-- Square root, with the same sticky bit. -/
def sqrt (x : IeeeFloat f) : IeeeFloat f :=
  if x.isNaN then nan
  else if x.magnitude = 0 then x
  else if x.negative then nan
  else if x.isFinite then
    let k := 2 * (f.fracBits + 3) + (x.unpack.2 % 2).toNat
    let n := x.unpack.1 * 2 ^ k
    let r := Nat.sqrt n
    pack false (2 * r + if r * r = n then 0 else 1) ((x.unpack.2 - k) / 2 - 1)
  else x

/-- The sum of a list, from left to right, starting at negative zero. -/
def sum (l : List (IeeeFloat f)) : IeeeFloat f := l.foldl add (ofMagnitude true 0)

/-! ## Numbers that compare equal -/

/-- The same bits, or two zeros. -/
def SameNumber (x y : IeeeFloat f) : Prop := x = y ∨ (x.magnitude = 0 ∧ y.magnitude = 0)

private theorem ext_bits {x y : IeeeFloat f} (h : x.bits.toNat = y.bits.toNat) : x = y := by
  cases x
  cases y
  exact congrArg IeeeFloat.mk (BitVec.eq_of_toNat_eq h)

theorem bits_lt (x : IeeeFloat f) : x.bits.toNat < 2 * 2 ^ (f.expBits + f.fracBits) := by
  have hlt : x.bits.toNat < 2 ^ (1 + f.expBits + f.fracBits) := x.bits.isLt
  rwa [Nat.add_assoc, Nat.pow_add, Nat.pow_one] at hlt

theorem totalRank_injective : Function.Injective (totalRank (f := f)) := by
  intro x y h
  have hx := x.bits_lt
  have hy := y.bits_lt
  simp only [totalRank, negative, magnitude, decide_eq_true_eq] at h
  refine ext_bits ?_
  generalize 2 ^ (f.expBits + f.fracBits) = n at h hx hy
  generalize x.bits.toNat = a at h hx ⊢
  generalize y.bits.toNat = b at h hy ⊢
  have hmod : ∀ {c}, c < 2 * n → n ≤ c → c % n = c - n := fun {c} hc hn ↦ by
    rw [Nat.mod_eq_sub_mod hn, Nat.mod_eq_of_lt (by omega)]
  by_cases ha : n ≤ a <;> by_cases hb : n ≤ b
  · rw [if_pos ha, if_pos hb, hmod hx ha, hmod hy hb] at h
    omega
  · rw [if_pos ha, if_neg hb, Nat.mod_eq_of_lt (not_le.mp hb)] at h
    omega
  · rw [if_neg ha, if_pos hb, Nat.mod_eq_of_lt (not_le.mp ha)] at h
    omega
  · rw [if_neg ha, if_neg hb, Nat.mod_eq_of_lt (not_le.mp ha), Nat.mod_eq_of_lt (not_le.mp hb)] at h
    omega

/-- The order of `total_cmp`. -/
instance instLinearOrder : LinearOrder (IeeeFloat f) :=
  LinearOrder.lift' totalRank totalRank_injective

/-- Numbers that compare equal have the same bits, or are both zero. -/
theorem sameNumber_of_eqv {x y : IeeeFloat f} (h : x.eqv y = true) :
    SameNumber x y := by
  have hr : x.rank = y.rank := by
    rw [eqv, partialCmp] at h
    split at h
    · exact absurd h (by decide)
    · simpa using h
  have hbits : ∀ z : IeeeFloat f, z.bits.toNat =
      z.magnitude + if z.negative then 2 ^ (f.expBits + f.fracBits) else 0 := by
    intro z
    have hlt : z.bits.toNat < 2 ^ (f.expBits + f.fracBits) * 2 := by
      have hw : 2 ^ f.width = 2 ^ (f.expBits + f.fracBits) * 2 := by
        rw [← Nat.pow_succ]
        congr 1
        rw [Format.width]
        omega
      exact hw ▸ z.bits.isLt
    rw [magnitude, negative]
    by_cases hs : 2 ^ (f.expBits + f.fracBits) ≤ z.bits.toNat
    · rw [Nat.mod_eq_sub_mod hs, Nat.mod_eq_of_lt (by omega)]
      simp only [hs, decide_true, if_true]
      omega
    · rw [Nat.mod_eq_of_lt (by omega)]
      simp [hs]
  have hx := hbits x
  have hy := hbits y
  rw [rank, rank] at hr
  by_cases hnx : x.negative <;> by_cases hny : y.negative <;>
    simp only [hnx, hny, if_true, if_false, Bool.false_eq_true] at hr hx hy
  · exact Or.inl (ext_bits (by omega))
  · right
    omega
  · right
    omega
  · exact Or.inl (ext_bits (by omega))

/-- A square does not see the sign of zero. -/
theorem SameNumber.mul_self {x y : IeeeFloat f} (h : SameNumber x y) : x.mul x = y.mul y := by
  rcases h with rfl | ⟨hx, hy⟩
  · rfl
  · simp only [mul, Bool.xor_self, isNaN, isFinite, unpack, hx, hy]

@[simp] theorem magnitude_ofMagnitude_zero (neg : Bool) :
    (ofMagnitude neg 0 : IeeeFloat f).magnitude = 0 := by
  have hdvd : 2 ^ (f.expBits + f.fracBits) ∣ 2 ^ f.width := by
    rw [Format.width]
    exact Nat.pow_dvd_pow 2 (by omega)
  rw [magnitude, ofMagnitude, BitVec.toNat_ofNat, Nat.mod_mod_of_dvd _ hdvd]
  cases neg <;> simp

/-- Conversion takes zeros to zeros. -/
theorem magnitude_convert_of_zero {x : IeeeFloat f} (h : x.magnitude = 0)
    (hf : 0 < f.infinity) : (x.convert : IeeeFloat g).magnitude = 0 := by
  have hnan : x.isNaN = false := by simp [isNaN, h]
  have hfin : x.isFinite = true := by simpa [isFinite, h] using hf
  have hm : x.unpack.1 = 0 := by simp [unpack, h]
  rw [convert, if_neg (by simp [hnan]), if_pos hfin, hm, pack, if_pos rfl,
    magnitude_ofMagnitude_zero]

end IeeeFloat

example : (IeeeFloat.ofInt 1 : IeeeFloat Ieee.binary64) = ⟨0x3FF0000000000000⟩ := by decide

example : (IeeeFloat.ofInt (-9007199254740993) : IeeeFloat Ieee.binary64) =
    ⟨0xC340000000000000⟩ := by decide
