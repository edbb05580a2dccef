import Bkndb.Basic.Ieee
import Mathlib.Tactic.Linarith

/-!
# Rounding keeps the order

Rounding an integer to a floating-point number is monotone, for both orders of those numbers. On
magnitudes: of two integers with the same leading bit the smaller has the smaller significand, and
a greater leading bit means a greater exponent, which the significand rounding up to the next power
of two can only reach.

The proof does not go through the reals. An integer below `2 ^ 53` is exact and a greater one is
cut to its leading bits and rounded, so what has to be shown is that cutting and rounding keep the
order of integers; a carry out of the significand is the case that needs care, because there the
exponent changes as well.

The comparison of an `Int` with a `Float` in the program rounds the integer and compares floats.
Monotonicity is what makes that comparison usable for sorting, and the failure of injectivity, two
integers that round to one float, is where it is not transitive.
-/

namespace IeeeFloat

open Ieee

variable {f : Format}

/-! ## Sign and magnitude -/

theorem magnitude_ofMagnitude {neg : Bool} {m : ℕ} (h : m < 2 ^ (f.expBits + f.fracBits)) :
    (ofMagnitude neg m : IeeeFloat f).magnitude = m := by
  have hw : 2 ^ f.width = 2 ^ (f.expBits + f.fracBits) * 2 := by
    rw [← Nat.pow_succ]
    congr 1
    rw [Format.width]
    omega
  rw [magnitude, ofMagnitude, BitVec.toNat_ofNat, hw]
  cases neg
  · rw [if_neg Bool.false_ne_true, Nat.add_zero, Nat.mod_mod_of_dvd _ ⟨2, rfl⟩, Nat.mod_eq_of_lt h]
  · rw [if_pos rfl, Nat.mod_mod_of_dvd _ ⟨2, rfl⟩, Nat.add_mod_right, Nat.mod_eq_of_lt h]

theorem negative_ofMagnitude {neg : Bool} {m : ℕ} (h : m < 2 ^ (f.expBits + f.fracBits)) :
    (ofMagnitude neg m : IeeeFloat f).negative = neg := by
  have hw : 2 ^ f.width = 2 ^ (f.expBits + f.fracBits) * 2 := by
    rw [← Nat.pow_succ]
    congr 1
    rw [Format.width]
    omega
  rw [negative, ofMagnitude, BitVec.toNat_ofNat, hw]
  cases neg
  · rw [if_neg Bool.false_ne_true, Nat.add_zero, Nat.mod_eq_of_lt (by omega), decide_eq_false_iff_not]
    omega
  · rw [if_pos rfl, Nat.mod_eq_of_lt (by omega), decide_eq_true_eq]
    omega

theorem infinity_lt (f : Format) : f.infinity < 2 ^ (f.expBits + f.fracBits) := by
  have hpos : 0 < 2 ^ f.fracBits := by positivity
  have hexp : 0 < 2 ^ f.expBits := by positivity
  rw [Format.infinity, Nat.pow_add]
  exact Nat.mul_lt_mul_of_pos_right (by omega) hpos

/-! ## Significands -/

theorem shiftRound_mono {m n s : ℕ} (h : m ≤ n) : shiftRound m s ≤ shiftRound n s := by
  have hq : m / 2 ^ s ≤ n / 2 ^ s := Nat.div_le_div_right h
  have hm := Nat.div_add_mod m (2 ^ s)
  have hn := Nat.div_add_mod n (2 ^ s)
  simp only [shiftRound]
  rcases Nat.lt_or_ge (m / 2 ^ s) (n / 2 ^ s) with hlt | hge
  · split_ifs <;> omega
  · have heq : m / 2 ^ s = n / 2 ^ s := le_antisymm hq hge
    rw [heq] at hm ⊢
    split_ifs <;> omega

theorem div_le_shiftRound (m s : ℕ) : m / 2 ^ s ≤ shiftRound m s := by
  simp only [shiftRound]
  split_ifs <;> omega

theorem shiftRound_le (m s : ℕ) : shiftRound m s ≤ m / 2 ^ s + 1 := by
  simp only [shiftRound]
  split_ifs <;> omega

/-- The significand of a positive integer with its leading bit at `L`. -/
def significand (f : Format) (m L : ℕ) : ℕ :=
  if L ≤ f.fracBits then m * 2 ^ (f.fracBits - L) else shiftRound m (L - f.fracBits)

theorem significand_mono {m n L : ℕ} (h : m ≤ n) : significand f m L ≤ significand f n L := by
  rw [significand, significand]
  split
  · exact Nat.mul_le_mul_right _ h
  · exact shiftRound_mono h

theorem significand_bounds {m L : ℕ} (hlo : 2 ^ L ≤ m) (hhi : m < 2 ^ (L + 1)) :
    2 ^ f.fracBits ≤ significand f m L ∧ significand f m L ≤ 2 * 2 ^ f.fracBits := by
  rw [significand]
  split
  case isTrue hle =>
    have hsplit : 2 ^ L * 2 ^ (f.fracBits - L) = 2 ^ f.fracBits := by
      rw [← Nat.pow_add, Nat.add_sub_cancel' hle]
    constructor
    · rw [← hsplit]
      exact Nat.mul_le_mul_right _ hlo
    · have := Nat.mul_le_mul_right (2 ^ (f.fracBits - L)) hhi.le
      rwa [Nat.pow_succ, Nat.mul_comm (2 ^ L) 2, Nat.mul_assoc, hsplit] at this
  case isFalse hgt =>
    have hsplit : 2 ^ f.fracBits * 2 ^ (L - f.fracBits) = 2 ^ L := by
      rw [← Nat.pow_add]
      congr 1
      omega
    have hpos : 0 < 2 ^ (L - f.fracBits) := by positivity
    constructor
    · refine le_trans ?_ (div_le_shiftRound _ _)
      rw [Nat.le_div_iff_mul_le hpos, hsplit]
      exact hlo
    · refine (shiftRound_le _ _).trans ?_
      have hdiv : m / 2 ^ (L - f.fracBits) < 2 * 2 ^ f.fracBits := by
        rw [Nat.div_lt_iff_lt_mul hpos, Nat.mul_assoc, hsplit, ← Nat.pow_succ']
        exact hhi
      omega

/-! ## Integers -/

/-- The magnitude an integer rounds to. -/
def intMagnitude (f : Format) (m : ℕ) : ℕ :=
  if m = 0 then 0
  else min ((Nat.log2 m + f.bias - 1).toNat * 2 ^ f.fracBits + significand f m (Nat.log2 m)) f.infinity

theorem pack_zero_eq (hf : 2 ≤ f.expBits) (neg : Bool) (m : ℕ) :
    (pack neg m 0 : IeeeFloat f) = ofMagnitude neg (intMagnitude f m) := by
  have hbias : 1 ≤ f.bias := by
    have hpow : (2 : ℤ) ^ 1 ≤ 2 ^ (f.expBits - 1) := pow_le_pow_right₀ (by norm_num) (by omega)
    rw [Format.bias]
    omega
  rw [pack, intMagnitude]
  split
  case isTrue => rfl
  case isFalse =>
    have hq : max ((Nat.log2 m : ℤ) + 0 - f.fracBits) (1 - f.bias - f.fracBits) =
        Nat.log2 m - f.fracBits := by
      rw [max_eq_left (by omega)]
      omega
    dsimp only
    rw [hq]
    congr 2
    have hexp : (Nat.log2 m : ℤ) - f.fracBits + f.fracBits + f.bias - 1 = Nat.log2 m + f.bias - 1 := by
      omega
    rw [hexp, significand]
    congr 1
    by_cases hle : Nat.log2 m ≤ f.fracBits
    · rw [if_pos (by omega), if_pos hle]
      congr 2
      omega
    · rw [if_neg (by omega), if_neg hle]
      congr 1
      omega

/-- **Magnitudes grow with the integers.** -/
theorem intMagnitude_mono (hf : 2 ≤ f.expBits) {m n : ℕ} (h : m ≤ n) :
    intMagnitude f m ≤ intMagnitude f n := by
  have hbias : 1 ≤ f.bias := by
    have hpow : (2 : ℤ) ^ 1 ≤ 2 ^ (f.expBits - 1) := pow_le_pow_right₀ (by norm_num) (by omega)
    rw [Format.bias]
    omega
  rw [intMagnitude, intMagnitude]
  by_cases hm : m = 0
  · rw [if_pos hm]
    exact Nat.zero_le _
  have hn : n ≠ 0 := by omega
  rw [if_neg hm, if_neg hn]
  refine min_le_min_right _ ?_
  have hmlo := Nat.log2_self_le hm
  have hmhi := @Nat.lt_log2_self m
  have hnlo := Nat.log2_self_le hn
  have hnhi := @Nat.lt_log2_self n
  have hlog : Nat.log2 m ≤ Nat.log2 n := by
    by_contra hlt
    have hpow : 2 ^ (Nat.log2 n + 1) ≤ 2 ^ Nat.log2 m := Nat.pow_le_pow_right (by omega) (by omega)
    omega
  rcases Nat.lt_or_ge (Nat.log2 m) (Nat.log2 n) with hlt | hge
  · have hbm := (significand_bounds (f := f) hmlo hmhi).2
    have hbn := (significand_bounds (f := f) hnlo hnhi).1
    -- one exponent more is worth a whole significand
    have hstep : (Nat.log2 m + f.bias - 1).toNat + 1 ≤ (Nat.log2 n + f.bias - 1).toNat := by omega
    have hmul := Nat.mul_le_mul_right (2 ^ f.fracBits) hstep
    rw [Nat.add_mul, Nat.one_mul] at hmul
    omega
  · have heq : Nat.log2 m = Nat.log2 n := le_antisymm hlog hge
    rw [heq]
    exact Nat.add_le_add_left (significand_mono h) _

theorem intMagnitude_le (m : ℕ) : intMagnitude f m ≤ f.infinity := by
  rw [intMagnitude]
  split
  · exact Nat.zero_le _
  · exact min_le_right _ _

theorem intMagnitude_lt (m : ℕ) : intMagnitude f m < 2 ^ (f.expBits + f.fracBits) :=
  lt_of_le_of_lt (intMagnitude_le m) (infinity_lt f)

theorem magnitude_ofInt (hf : 2 ≤ f.expBits) (i : ℤ) :
    (ofInt i : IeeeFloat f).magnitude = intMagnitude f i.natAbs := by
  rw [ofInt, pack_zero_eq hf, magnitude_ofMagnitude (intMagnitude_lt _)]

theorem negative_ofInt (hf : 2 ≤ f.expBits) (i : ℤ) :
    (ofInt i : IeeeFloat f).negative = decide (i < 0) := by
  rw [ofInt, pack_zero_eq hf, negative_ofMagnitude (intMagnitude_lt _)]

/-- An integer rounds to a number. -/
theorem isNaN_ofInt (hf : 2 ≤ f.expBits) (i : ℤ) : (ofInt i : IeeeFloat f).isNaN = false := by
  rw [isNaN, magnitude_ofInt hf, decide_eq_false_iff_not, not_lt]
  exact intMagnitude_le _

/-- **Rounding is monotone**, in the order of the numbers. -/
theorem rank_ofInt_mono (hf : 2 ≤ f.expBits) {i j : ℤ} (h : i ≤ j) :
    (ofInt i : IeeeFloat f).rank ≤ (ofInt j : IeeeFloat f).rank := by
  rw [rank, rank, magnitude_ofInt hf, magnitude_ofInt hf, negative_ofInt hf, negative_ofInt hf]
  simp only [decide_eq_true_eq]
  by_cases hi : i < 0 <;> by_cases hj : j < 0
  · have := intMagnitude_mono hf (show j.natAbs ≤ i.natAbs by omega)
    rw [if_pos hi, if_pos hj]
    omega
  · rw [if_pos hi, if_neg hj]
    omega
  · omega
  · have := intMagnitude_mono hf (show i.natAbs ≤ j.natAbs by omega)
    rw [if_neg hi, if_neg hj]
    omega

/-- **Rounding is monotone**, in the order of the bit patterns. -/
theorem totalRank_ofInt_mono (hf : 2 ≤ f.expBits) {i j : ℤ} (h : i ≤ j) :
    (ofInt i : IeeeFloat f).totalRank ≤ (ofInt j : IeeeFloat f).totalRank := by
  rw [totalRank, totalRank, magnitude_ofInt hf, magnitude_ofInt hf, negative_ofInt hf,
    negative_ofInt hf]
  simp only [decide_eq_true_eq]
  by_cases hi : i < 0 <;> by_cases hj : j < 0
  · have := intMagnitude_mono hf (show j.natAbs ≤ i.natAbs by omega)
    rw [if_pos hi, if_pos hj]
    omega
  · rw [if_pos hi, if_neg hj]
    omega
  · omega
  · have := intMagnitude_mono hf (show i.natAbs ≤ j.natAbs by omega)
    rw [if_neg hi, if_neg hj]
    omega

/-! ## Comparison -/

theorem partialCmp_swap (x y : IeeeFloat f) : y.partialCmp x = (x.partialCmp y).map .swap := by
  rw [partialCmp, partialCmp, Bool.or_comm]
  split
  · rfl
  · rw [Option.map_some, Int.compare_swap]

/-- A number equal to another compares as it does. -/
theorem partialCmp_congr {x y : IeeeFloat f} (h : x.partialCmp y = some .eq) (z : IeeeFloat f) :
    x.partialCmp z = y.partialCmp z := by
  rw [partialCmp] at h
  split at h
  case isTrue => cases h
  case isFalse hnan =>
    obtain ⟨hx, hy⟩ : x.isNaN = false ∧ y.isNaN = false := by simpa using hnan
    have hrank : x.rank = y.rank := by simpa using h
    rw [partialCmp, partialCmp, hx, hy, hrank]

theorem partialCmp_eq_some {x y : IeeeFloat f} {o : Ordering} :
    x.partialCmp y = some o ↔ x.isNaN = false ∧ y.isNaN = false ∧ compare x.rank y.rank = o := by
  rw [partialCmp]
  split
  case isTrue h =>
    rw [Bool.or_eq_true] at h
    rcases h with h | h <;> simp [h]
  case isFalse h =>
    rw [Bool.or_eq_true, not_or, Bool.not_eq_true, Bool.not_eq_true] at h
    simp [h]

end IeeeFloat
