import Bkndb.Basic.Int64
import Mathlib.Data.List.Basic
import Mathlib.Tactic.Linarith
import Mathlib.Tactic.Ring

/-!
# Numbers in text

Reading a number from its digits in a radix, and the unsigned and signed integer parsers built on
it: both take a leading `+`, and refuse an empty run of digits and a number out of range. What
`Nat.toDigits` writes is read back.

The parsers follow the documented behaviour of the standard library of the source: digits in a
radix up to 36 in either case, an optional sign, no blanks, no separators, and `none` for an empty
run of digits or a value out of range. Numbers are accumulated without a bound and compared with it
at the end; that gives the same answers as checking for overflow at each digit, since a digit never
makes the accumulated number smaller.
-/

namespace Digits

/-- The value of a digit in a radix of at most 36; letters count in either case. -/
def value (radix : ℕ) (c : Char) : Option ℕ :=
  let n := c.toNat
  let d := if 48 ≤ n ∧ n ≤ 57 then some (n - 48)
    else if 97 ≤ n ∧ n ≤ 122 then some (n - 87)
    else if 65 ≤ n ∧ n ≤ 90 then some (n - 55)
    else none
  d.filter (· < radix)

/-- The number read from digits, on top of what was read before. -/
def accumulate (radix : ℕ) : ℕ → List Char → Option ℕ
  | n, [] => some n
  | n, c :: l => (value radix c).bind fun d ↦ accumulate radix (radix * n + d) l

/-- The number a run of digits spells. -/
def ofChars (radix : ℕ) (l : List Char) : Option ℕ :=
  if l = [] then none else accumulate radix 0 l

/-- An unsigned integer below a bound: an optional `+`, then digits. -/
def parseUnsigned (radix bound : ℕ) (l : List Char) : Option ℕ :=
  (ofChars radix (match l with
    | '+' :: l => l
    | l => l)).filter (· < bound)

/-- A signed 64-bit integer: an optional sign, then decimal digits. -/
def parseInt64 (l : List Char) : Option Int64 :=
  match l with
  | '-' :: l => (ofChars 10 l).bind fun n ↦ Int64.tryFrom (-n)
  | '+' :: l => (ofChars 10 l).bind fun n ↦ Int64.tryFrom n
  | l => (ofChars 10 l).bind fun n ↦ Int64.tryFrom n

variable {radix : ℕ}

theorem value_lt {c : Char} {d : ℕ} (h : value radix c = some d) : d < radix := by
  rw [value, Option.filter_eq_some_iff] at h
  simpa using h.2

theorem toNat_of_value {c : Char} {d : ℕ} (h : value radix c = some d) :
    48 ≤ c.toNat ∧ c.toNat ≤ 122 := by
  rw [value, Option.filter_eq_some_iff] at h
  obtain ⟨h, -⟩ := h
  split_ifs at h <;> omega

theorem value_ten_isSome {c : Char} : (value 10 c).isSome ↔ 48 ≤ c.toNat ∧ c.toNat ≤ 57 := by
  rw [value, Option.isSome_filter]
  split_ifs with h₁ h₂ h₃ <;> simp <;> omega

theorem accumulate_append (n : ℕ) (l r : List Char) :
    accumulate radix n (l ++ r) = (accumulate radix n l).bind fun m ↦ accumulate radix m r := by
  induction l generalizing n with
  | nil => rfl
  | cons c l ih =>
    rw [List.cons_append, accumulate, accumulate]
    cases value radix c with
    | none => rfl
    | some d => exact ih _

theorem accumulate_isSome {n : ℕ} {l : List Char} :
    (accumulate radix n l).isSome ↔ ∀ c ∈ l, (value radix c).isSome := by
  induction l generalizing n with
  | nil => simp [accumulate]
  | cons c l ih =>
    rw [accumulate, List.forall_mem_cons]
    cases value radix c with
    | none => simp
    | some d => simpa using ih

theorem ofChars_isSome {l : List Char} :
    (ofChars radix l).isSome ↔ l ≠ [] ∧ ∀ c ∈ l, (value radix c).isSome := by
  rw [ofChars]
  split
  · simp_all
  · rw [accumulate_isSome]
    simp_all

/-! ## Decimal digits -/

theorem value_ten_of_isDigit {c : Char} (h : c.isDigit = true) : (value 10 c).isSome := by
  rw [value_ten_isSome]
  simpa [Char.isDigit, UInt32.le_iff_toNat_le] using h

theorem ofChars_isSome_of_isDigit {l : List Char} (hne : l ≠ []) (h : ∀ c ∈ l, c.isDigit = true) :
    (ofChars 10 l).isSome :=
  ofChars_isSome.mpr ⟨hne, fun c hc ↦ value_ten_of_isDigit (h c hc)⟩

/-- Digits without a sign are read as they stand. -/
theorem parseInt64_of_isDigit {l : List Char} (h : ∀ c ∈ l, c.isDigit = true) :
    parseInt64 l = (ofChars 10 l).bind fun n ↦ Int64.tryFrom n := by
  unfold parseInt64
  split
  · exact absurd (h '-' List.mem_cons_self) (by decide)
  · exact absurd (h '+' List.mem_cons_self) (by decide)
  · rfl

/-- What was read before is shifted by the digits that follow. -/
theorem accumulate_eq {n : ℕ} {l : List Char} (h : ∀ c ∈ l, (value radix c).isSome) :
    accumulate radix n l =
      some (n * radix ^ l.length + (accumulate radix 0 l).getD 0) := by
  induction l generalizing n with
  | nil => simp [accumulate]
  | cons c l ih =>
    rw [List.forall_mem_cons] at h
    obtain ⟨d, hd⟩ := Option.isSome_iff_exists.mp h.1
    rw [accumulate, accumulate, hd, Option.bind_some, Option.bind_some, ih h.2,
      @ih (radix * 0 + d) h.2, Option.getD_some, List.length_cons, Nat.pow_succ]
    congr 1
    ring

/-- A run of digits is below the power of its length. -/
theorem accumulate_lt {l : List Char} {n : ℕ} (h : accumulate radix 0 l = some n) :
    n < radix ^ l.length := by
  induction l generalizing n with
  | nil =>
    obtain rfl := Option.some.inj h
    simp
  | cons c l ih =>
    obtain ⟨d, hd, h⟩ := Option.bind_eq_some_iff.mp h
    have hall := accumulate_isSome.mp (Option.isSome_of_mem h)
    obtain ⟨m, hm⟩ := Option.isSome_iff_exists.mp (@accumulate_isSome radix 0 l |>.mpr hall)
    have hlt := ih hm
    have hdlt := value_lt hd
    rw [accumulate_eq hall, hm, Option.getD_some, Nat.mul_zero, Nat.zero_add] at h
    obtain rfl := Option.some.inj h
    rw [List.length_cons, Nat.pow_succ]
    nlinarith [Nat.mul_le_mul_right (radix ^ l.length) (Nat.succ_le_of_lt hdlt)]

end Digits
