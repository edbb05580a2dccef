import Bkndb.Lang.Time

/-!
# Which texts are timestamps

The parser of timestamps reads exactly the texts of timestamps whose fields are in range, of any
width (`parseDate_eq_some`, `parseTime_eq_some`), and a text has at most one such reading
(`Stamp.render_injective`). It is right on a text exactly when the width of the fields makes no
difference there, nothing is torn, and nothing overflows (`parseTimestamp_right_iff`).

## In three steps

* What the parser does with a text, field by field, is read back as a statement about texts: it
  takes the text of a timestamp with its fields in range and ten characters for the date
  (`parseDate_eq_some`, `parseTime_eq_some`).
* A text has one reading, so the fields of a text can be spoken of (`Stamp.render_injective`).
* The documented form asks for more of the fields, and the range of the microseconds bounds the
  years. What is left between the two is the condition.

## Errors against panics

The parser refuses a text with an error in most cases. A panic happens in two places: where the
date is cut off inside a character, and where the microseconds of the day overflow.
-/

namespace Timestamp

/-! ## Fields of digits -/

theorem Digital.notMem {l : List Char} (h : Digital l) {c : Char} (hc : c.isDigit = false) :
    c ∉ l := fun hmem ↦ by
  rw [h.2 c hmem] at hc
  cases hc

theorem ofChars_of_digital {l : List Char} (h : Digital l) :
    Digits.ofChars 10 l = some (number l) := by
  obtain ⟨n, hn⟩ := Option.isSome_iff_exists.mp (Digits.ofChars_isSome_of_isDigit h.1 h.2)
  rw [number, hn, Option.getD_some]

theorem num_eq_some {l : List Char} {z : ℤ} :
    num l = some z ↔ Digital l ∧ number l < 2 ^ 63 ∧ z = number l := by
  have hdigital : (l ≠ [] ∧ l.all Char.isDigit = true) ↔ Digital l := by
    rw [Digital, List.all_eq_true]
  rw [num]
  by_cases h : Digital l
  · have hfits : Int64.Fits (number l : ℤ) ↔ number l < 2 ^ 63 := by
      unfold Int64.Fits RunningSum.Within
      omega
    rw [if_pos (hdigital.mpr h), and_iff_right h, Digits.parseInt64_of_isDigit h.2, ofChars_of_digital h,
      Option.bind_some]
    by_cases hlt : number l < 2 ^ 63
    · rw [Int64.tryFrom_of_fits (hfits.mpr hlt), Option.map_some,
        Int64.toInt_ofInt_of_fits (hfits.mpr hlt), and_iff_right hlt, Option.some.injEq, eq_comm]
    · rw [Int64.tryFrom_of_not_fits (mt hfits.mp hlt)]
      exact iff_of_false (by simp) fun h ↦ absurd h.1 hlt
  · rw [if_neg (mt hdigital.mp h)]
    simp [h]

theorem number_lt {l : List Char} (h : Digital l) : number l < 10 ^ l.length := by
  have hsome := ofChars_of_digital h
  rw [Digits.ofChars, if_neg h.1] at hsome
  exact Digits.accumulate_lt hsome

theorem number_append {a b : List Char} (ha : Digital a) (hb : Digital b) :
    number (a ++ b) = number a * 10 ^ b.length + number b := by
  have hsome := ofChars_of_digital ha
  have hsomeb := ofChars_of_digital hb
  rw [Digits.ofChars, if_neg ha.1] at hsome
  rw [Digits.ofChars, if_neg hb.1] at hsomeb
  have hne : a ++ b ≠ [] := by simp [ha.1]
  rw [number, Digits.ofChars, if_neg hne, Digits.accumulate_append, hsome, Option.bind_some,
    Digits.accumulate_eq fun c hc ↦ Digits.value_ten_of_isDigit (hb.2 c hc), hsomeb,
    Option.getD_some, Option.getD_some]

theorem number_zeros (k : ℕ) : number (List.replicate k '0') = 0 := by
  cases k with
  | zero => rfl
  | succ k =>
    have hzeros : ∀ k, Digits.accumulate 10 0 (List.replicate k '0') = some 0 := by
      intro k
      induction k with
      | zero => rfl
      | succ k ih =>
        rw [List.replicate_succ, Digits.accumulate]
        exact ih
    rw [number, Digits.ofChars, if_neg (by simp), hzeros]
    rfl

theorem digital_zeros {k : ℕ} (h : k ≠ 0) : Digital (List.replicate k '0') := by
  refine ⟨by simpa using h, fun c hc ↦ ?_⟩
  rw [List.eq_of_mem_replicate hc]
  decide

theorem parseFraction_of_digital {f : List Char} (h : Digital f) (hlt : number f < 2 ^ 63) :
    parseFraction f = some (fractionMicros f : ℤ) := by
  have hnum : num f = some (number f : ℤ) := num_eq_some.mpr ⟨h, hlt, rfl⟩
  have hsix : ∃ d, (f ++ List.replicate 6 '0').take 6 = d ∧ Digital d ∧ d.length = 6 ∧
      number d = fractionMicros f := by
    refine ⟨_, rfl, ?_⟩
    by_cases hlen : f.length < 6
    · -- the fraction is filled up with zeros
      have htake : (f ++ List.replicate 6 '0').take 6 = f ++ List.replicate (6 - f.length) '0' := by
        rw [List.take_append, List.take_of_length_le hlen.le, List.take_replicate]
        congr 2
        omega
      have hzeros : Digital (List.replicate (6 - f.length) '0') := digital_zeros (by omega)
      rw [htake]
      refine ⟨⟨by simp [h.1], fun c hc ↦ ?_⟩, by simp; omega, ?_⟩
      · exact (List.mem_append.mp hc).elim (h.2 c) (hzeros.2 c)
      · rw [number_append h hzeros, number_zeros, List.length_replicate, Nat.add_zero,
          fractionMicros]
        have hpow : 10 ^ 6 = 10 ^ (6 - f.length) * 10 ^ f.length := by
          rw [← Nat.pow_add, Nat.sub_add_cancel hlen.le]
        rw [hpow, ← Nat.mul_assoc, Nat.mul_div_cancel _ (Nat.pow_pos (by decide))]
    · have htake : (f ++ List.replicate 6 '0').take 6 = f.take 6 := by
        rw [List.take_append_of_le_length (by omega)]
      have hdigital : Digital (f.take 6) := by
        refine ⟨fun hnil ↦ ?_, fun c hc ↦ h.2 c (List.mem_of_mem_take hc)⟩
        have := congrArg List.length hnil
        rw [List.length_take, List.length_nil] at this
        omega
      rw [htake]
      refine ⟨hdigital, by rw [List.length_take]; omega, ?_⟩
      by_cases hnil : f.drop 6 = []
      · -- six digits as they stand
        have hlen6 : f.length = 6 := by
          have := congrArg List.length hnil
          rw [List.length_drop, List.length_nil] at this
          omega
        rw [List.take_of_length_le hlen6.le, fractionMicros, hlen6,
          Nat.mul_div_cancel _ (by decide)]
      · -- what follows them is less than one
        have hrest : Digital (f.drop 6) := ⟨hnil, fun c hc ↦ h.2 c (List.mem_of_mem_drop hc)⟩
        have happend := number_append hdigital hrest
        have hrestlt := number_lt hrest
        rw [List.take_append_drop] at happend
        have hlen6 : f.length = 6 + (f.drop 6).length := by rw [List.length_drop]; omega
        rw [fractionMicros, happend, hlen6, Nat.pow_add, Nat.mul_comm (10 ^ 6),
          Nat.mul_div_mul_right _ _ (by decide), Nat.mul_comm, Nat.mul_add_div (by omega),
          Nat.div_eq_of_lt hrestlt, Nat.add_zero]
  obtain ⟨d, hd, hdigital, hlen, hnumber⟩ := hsix
  have hdlt := number_lt hdigital
  have hfits : Int64.Fits (number d : ℤ) := by
    rw [hlen] at hdlt
    unfold Int64.Fits RunningSum.Within
    omega
  rw [parseFraction, if_neg h.1, hnum, hd, Digits.parseInt64_of_isDigit hdigital.2,
    ofChars_of_digital hdigital]
  simp only [Option.bind_eq_bind, Option.bind_some]
  rw [Int64.tryFrom_of_fits hfits, Option.map_some, Int64.toInt_ofInt_of_fits hfits, hnumber]

/-! ## Dates

The fields of a date are around hyphens, and nothing but the ten characters in all restricts their
widths. -/

theorem utf8Size_of_isDigit {c : Char} (h : c.isDigit = true) : c.utf8Size = 1 := by
  refine Utf8.utf8Size_ascii ?_
  have hle : c.val.toNat ≤ 57 := by
    simp only [Char.isDigit, ge_iff_le, Bool.and_eq_true, decide_eq_true_eq,
      UInt32.le_iff_toNat_le] at h
    exact h.2
  omega

theorem Digital.size {l : List Char} (h : Digital l) : Utf8.size l = l.length := by
  obtain ⟨-, h⟩ := h
  induction l with
  | nil => rfl
  | cons c l ih =>
    rw [List.forall_mem_cons] at h
    rw [Utf8.size_cons, utf8Size_of_isDigit h.1, ih h.2, List.length_cons, Nat.add_comm]

theorem daysInMonth_eq (y : ℕ) {m : ℕ} (h1 : 1 ≤ m) (h12 : m ≤ 12) :
    daysInMonth y m = Calendar.daysInMonth y m := by
  have hleap : (((y : ℤ).tmod 4 = 0 ∧ (y : ℤ).tmod 100 ≠ 0) ∨ (y : ℤ).tmod 400 = 0) ↔
      Calendar.IsLeap y := by
    simp only [Int.tmod_eq_emod_of_nonneg (Int.natCast_nonneg y), Calendar.IsLeap]
    omega
  rw [daysInMonth]
  interval_cases m
  case «2» =>
    rw [if_neg (by decide), if_neg (by decide), Calendar.daysInMonth]
    by_cases hl : Calendar.IsLeap y
    · rw [if_pos (hleap.mpr hl), if_pos hl]
      rfl
    · rw [if_neg (mt hleap.mp hl), if_neg hl]
      rfl
  all_goals rfl

theorem era_eq {y : ℤ} (h : -1 ≤ y) : (if 0 ≤ y then y else y - 399).tdiv 400 = y / 400 := by
  by_cases hy : 0 ≤ y
  · rw [if_pos hy, Int.tdiv_eq_ediv_of_nonneg hy]
  · obtain rfl : y = -1 := by omega
    decide

theorem eraDays_eq (y : ℤ) :
    y / 400 * 146097 + ((y - y / 400 * 400) * 365 + (y - y / 400 * 400) / 4 -
      (y - y / 400 * 400) / 100) = 365 * y + y / 4 - y / 100 + y / 400 := by
  omega

/-- The algorithm counts the days. -/
theorem daysFromCivil_eq {y m d : ℕ} (h : Calendar.IsDate y m d) :
    daysFromCivil y m d = Calendar.daysSince1970 y m d := by
  obtain ⟨h1, h12, hd, -⟩ := h
  have hyear := Calendar.daysBeforeYear_eq y
  rw [Calendar.daysSince1970, Calendar.dayNumber_epoch, Calendar.dayNumber,
    Calendar.daysBeforeMonth_eq h1 h12, daysFromCivil]
  by_cases hm : m ≤ 2
  · -- January and February count with the year before
    have hmp : ((m : ℤ) + 9).tmod 12 = m + 9 := by
      rw [Int.tmod_eq_emod_of_nonneg (by omega)]
      omega
    rw [if_pos (by omega : (m : ℤ) ≤ 2), if_pos hm, era_eq (by omega), hmp,
      Int.tdiv_eq_ediv_of_nonneg (by omega), Int.tdiv_eq_ediv_of_nonneg (by omega),
      Int.tdiv_eq_ediv_of_nonneg (by omega)]
    omega
  · have hmp : ((m : ℤ) + 9).tmod 12 = m - 3 := by
      rw [Int.tmod_eq_emod_of_nonneg (by omega)]
      omega
    have hleap : (if Calendar.IsLeap y then 60 else 59) =
        59 + ((y + 4) / 4 - (y + 3) / 4) + ((y + 400) / 400 - (y + 399) / 400) -
          ((y + 100) / 100 - (y + 99) / 100) := by
      by_cases hl : Calendar.IsLeap y
      · rw [if_pos hl]
        unfold Calendar.IsLeap at hl
        omega
      · rw [if_neg hl]
        unfold Calendar.IsLeap at hl
        omega
    rw [if_neg (by omega : ¬ (m : ℤ) ≤ 2), if_neg hm, era_eq (by omega), hmp,
      Int.tdiv_eq_ediv_of_nonneg (by omega), Int.tdiv_eq_ediv_of_nonneg (by omega),
      Int.tdiv_eq_ediv_of_nonneg (by omega), hleap]
    have hera := eraDays_eq y
    have hmonth : (153 * ((m : ℤ) - 3) + 2) / 5 = ((153 * (m - 3) + 2) / 5 : ℕ) := by omega
    rw [hmonth]
    generalize (153 * (m - 3) + 2) / 5 = k
    omega

/-! ### Reading a date -/

theorem eq_triple {α : Type*} {l : List α} {a b c : α} (ha : l[0]? = some a) (hb : l[1]? = some b)
    (hc : l[2]? = some c) (hd : l[3]? = none) : l = [a, b, c] := by
  rcases l with _ | ⟨x, _ | ⟨y, _ | ⟨z, _ | ⟨w, l⟩⟩⟩⟩
  · cases ha
  · cases hb
  · cases hc
  · simp_all
  · cases hd

theorem splitOn_date {Y M D : List Char} (hY : Digital Y) (hM : Digital M) (hD : Digital D) :
    (Y ++ '-' :: (M ++ '-' :: D)).splitOn '-' = [Y, M, D] := by
  have hhyphen : '-'.isDigit = false := by decide
  rw [List.splitOn_append_cons_self_of_not_mem (hY.notMem hhyphen),
    List.splitOn_append_cons_self_of_not_mem (hM.notMem hhyphen),
    List.splitOn_eq_singleton (hD.notMem hhyphen)]

theorem number_fits {l : List Char} (h : Digital l) (hlen : l.length ≤ 8) : number l < 2 ^ 63 := by
  have hlt := number_lt h
  have hpow : 10 ^ l.length ≤ 10 ^ 8 := Nat.pow_le_pow_right (by decide) hlen
  omega

theorem size_date {Y M D : List Char} (hY : Digital Y) (hM : Digital M) (hD : Digital D) :
    Utf8.size (Y ++ '-' :: (M ++ '-' :: D)) = Y.length + M.length + D.length + 2 := by
  have hhyphen : '-'.utf8Size = 1 := rfl
  rw [Utf8.size_append, Utf8.size_cons, Utf8.size_append, Utf8.size_cons, hY.size, hM.size,
    hD.size, hhyphen]
  omega

/-- **A date of the parser**: three fields of digits in ten characters, which are a real date. -/
theorem parseDate_eq_some {date : List Char} {y m d : ℤ} :
    parseDate date = some (y, m, d) ↔
      ∃ Y M D, date = Y ++ '-' :: (M ++ '-' :: D) ∧ Digital Y ∧ Digital M ∧ Digital D ∧
        Y.length + M.length + D.length = 8 ∧ Calendar.IsDate (number Y) (number M) (number D) ∧
        y = number Y ∧ m = number M ∧ d = number D := by
  constructor
  · intro h
    rw [parseDate] at h
    simp only [Option.bind_eq_bind, Option.bind_eq_some_iff] at h
    obtain ⟨Y, hY, y', hy, M, hM, m', hm, D, hD, d', hd, h⟩ := h
    split_ifs at h with hbad
    obtain ⟨rfl, hmd⟩ := Prod.mk.inj (Option.some.inj h)
    obtain ⟨rfl, rfl⟩ := Prod.mk.inj hmd
    obtain ⟨hYd, -, rfl⟩ := num_eq_some.mp hy
    obtain ⟨hMd, -, rfl⟩ := num_eq_some.mp hm
    obtain ⟨hDd, -, rfl⟩ := num_eq_some.mp hd
    simp only [not_or, not_not, not_lt, Option.not_isSome_iff_eq_none] at hbad
    obtain ⟨hnone, hsize, hmonth, hday, hdays⟩ := hbad
    have hparts := eq_triple hY hM hD hnone
    have hdate : date = Y ++ '-' :: (M ++ '-' :: D) := by
      have hjoin : ['-'].intercalate (date.splitOn '-') = date := List.intercalate_splitOn '-'
      rw [hparts] at hjoin
      rw [← hjoin]
      simp [List.intercalate]
    rw [hdate, size_date hYd hMd hDd] at hsize
    rw [daysInMonth_eq _ (by omega) (by omega)] at hdays
    exact ⟨Y, M, D, hdate, hYd, hMd, hDd, by omega,
      ⟨by omega, by omega, by omega, by omega⟩, rfl, rfl, rfl⟩
  · rintro ⟨Y, M, D, rfl, hY, hM, hD, hlen, ⟨h1, h12, hd1, hdays⟩, rfl, rfl, rfl⟩
    rw [parseDate]
    simp only [splitOn_date hY hM hD, List.getElem?_cons_zero, List.getElem?_cons_succ,
      List.getElem?_nil, Option.bind_eq_bind, Option.bind_some,
      num_eq_some.mpr ⟨hY, number_fits hY (by omega), rfl⟩,
      num_eq_some.mpr ⟨hM, number_fits hM (by omega), rfl⟩,
      num_eq_some.mpr ⟨hD, number_fits hD (by omega), rfl⟩]
    rw [if_neg]
    rw [size_date hY hM hD, daysInMonth_eq _ h1 h12]
    simp only [Option.isSome_none, Bool.false_eq_true, false_or, not_or, not_not, not_lt]
    omega

/-! ## Splitting

What a split returns determines the text, and the other way round, when the separator does not
occur in the part on the side that is searched first. -/

theorem splitOnce_eq_some {c : Char} {s a b : List Char} :
    splitOnce c s = some (a, b) ↔ s = a ++ c :: b ∧ c ∉ a := by
  rw [splitOnce]
  constructor
  · intro h
    split_ifs at h with hmem
    obtain ⟨rfl, rfl⟩ := Prod.mk.inj (Option.some.inj h)
    refine ⟨?_, fun hc ↦ by simpa using List.mem_takeWhile_imp hc⟩
    have hne : s.dropWhile (· != c) ≠ [] := by
      rw [ne_eq, List.dropWhile_eq_nil_iff]
      exact fun hall ↦ by simpa using hall c hmem
    obtain ⟨d, l, hl⟩ := List.exists_cons_of_ne_nil hne
    have hd := List.head?_dropWhile_not (· != c) s
    rw [hl] at hd
    obtain rfl : d = c := by simpa using hd
    rw [hl, List.tail_cons, ← hl, List.takeWhile_append_dropWhile]
  · rintro ⟨rfl, hc⟩
    have hall : ∀ x ∈ a, (x != c) = true := fun x hx ↦ by
      rw [bne_iff_ne]
      exact fun heq ↦ hc (heq ▸ hx)
    rw [if_pos (by simp), List.takeWhile_append_of_pos hall, List.dropWhile_append_of_pos hall]
    simp

theorem append_cons_inj {c : Char} {a b a' b' : List Char} (ha : c ∉ a) (ha' : c ∉ a')
    (h : a ++ c :: b = a' ++ c :: b') : a = a' ∧ b = b' := by
  have hs : splitOnce c (a ++ c :: b) = some (a, b) := splitOnce_eq_some.mpr ⟨rfl, ha⟩
  have hs' : splitOnce c (a ++ c :: b) = some (a', b') := splitOnce_eq_some.mpr ⟨h, ha'⟩
  exact Prod.mk.inj (Option.some.inj (hs.symm.trans hs'))

theorem splitOnce_eq_none {c : Char} {s : List Char} (h : c ∉ s) : splitOnce c s = none := if_neg h

theorem splitLast_eq_none {p : Char → Bool} {s : List Char} (h : ∀ c ∈ s, p c = false) :
    splitLast p s = none := by
  induction s with
  | nil => rfl
  | cons c s ih =>
    rw [List.forall_mem_cons] at h
    rw [splitLast, ih h.2]
    simp [h.1]

theorem splitLast_append {p : Char → Bool} (a : List Char) {d : Char} {b : List Char}
    (hd : p d = true) (hb : ∀ c ∈ b, p c = false) : splitLast p (a ++ d :: b) = some (a, d, b) := by
  induction a with
  | nil =>
    rw [List.nil_append, splitLast, splitLast_eq_none hb]
    simp [hd]
  | cons c a ih => rw [List.cons_append, splitLast, ih]

theorem splitLast_eq_some {p : Char → Bool} {s a b : List Char} {d : Char}
    (h : splitLast p s = some (a, d, b)) : s = a ++ d :: b ∧ p d = true := by
  induction s generalizing a with
  | nil => cases h
  | cons c s ih =>
    rw [splitLast] at h
    rcases hs : splitLast p s with _ | ⟨a', d', b'⟩ <;> rw [hs] at h
    · dsimp only at h
      split_ifs at h with hc
      obtain ⟨rfl, htail⟩ := Prod.mk.inj (Option.some.inj h)
      obtain ⟨rfl, rfl⟩ := Prod.mk.inj htail
      exact ⟨rfl, hc⟩
    · obtain ⟨rfl, htail⟩ := Prod.mk.inj (Option.some.inj h)
      obtain ⟨rfl, rfl⟩ := Prod.mk.inj htail
      obtain ⟨rfl, hd⟩ := ih hs
      exact ⟨rfl, hd⟩

/-! ## Clock times -/

/-- A fraction whose digits fit the integer parser. -/
def SmallFraction (second : Option (List Char × Option (List Char))) : Prop :=
  ∀ s f, second = some (s, some f) → number f < 2 ^ 63

theorem InRange.num {l : List Char} {bound : ℕ} (h : InRange l bound) (hb : bound < 2 ^ 63) :
    num l = some (number l : ℤ) := num_eq_some.mpr ⟨h.1, h.2.trans_lt hb, rfl⟩

theorem parseFraction_eq {f : List Char} (h : ∀ c ∈ f, c.isDigit = true) (hlt : number f < 2 ^ 63) :
    parseFraction f = some (fractionMicros f : ℤ) := by
  by_cases hnil : f = []
  · subst hnil
    rfl
  · exact parseFraction_of_digital ⟨hnil, h⟩ hlt

theorem of_parseFraction {f : List Char} {z : ℤ} (h : parseFraction f = some z) :
    (∀ c ∈ f, c.isDigit = true) ∧ number f < 2 ^ 63 := by
  rw [parseFraction] at h
  split_ifs at h with hnil
  · subst hnil
    exact ⟨by simp, by decide⟩
  · simp only [Option.bind_eq_bind, Option.bind_eq_some_iff] at h
    obtain ⟨n, hn, -⟩ := h
    obtain ⟨hf, hlt, -⟩ := num_eq_some.mp hn
    exact ⟨hf.2, hlt⟩

theorem parseSeconds_plain {s : List Char} (h : Digital s) :
    parseSeconds (some s) = (num s).map (·, []) := by
  rw [parseSeconds, splitOnce_eq_none (h.notMem (by decide))]

theorem parseSeconds_fraction {s : List Char} (h : Digital s) (f : List Char) :
    parseSeconds (some (s ++ '.' :: f)) = (num s).map (·, f) := by
  rw [parseSeconds, splitOnce_eq_some.mpr ⟨rfl, h.notMem (by decide)⟩]

theorem of_parseSeconds {o : Option (List Char)} {sec : ℤ} {frac : List Char}
    (h : parseSeconds o = some (sec, frac)) (hsec : sec ≤ 59) {z : ℤ}
    (hfrac : parseFraction frac = some z) :
    ∃ second, o = second.map renderSeconds ∧ SecondsProper second ∧ SmallFraction second ∧
      sec * 1000000 + z = secondsMicros second := by
  obtain ⟨hdigits, hsmall⟩ := of_parseFraction hfrac
  obtain rfl : z = fractionMicros frac := by
    rw [parseFraction_eq hdigits hsmall] at hfrac
    exact (Option.some.inj hfrac).symm
  cases o with
  | none =>
    obtain ⟨rfl, rfl⟩ := Prod.mk.inj (Option.some.inj h)
    exact ⟨none, rfl, trivial, by simp [SmallFraction], rfl⟩
  | some sf =>
    rw [parseSeconds] at h
    rcases hsplit : splitOnce '.' sf with _ | ⟨s, f⟩ <;> rw [hsplit] at h <;> dsimp only at h
    · obtain ⟨n, hn, heq⟩ := Option.map_eq_some_iff.mp h
      obtain ⟨rfl, rfl⟩ := Prod.mk.inj heq
      obtain ⟨hs, -, rfl⟩ := num_eq_some.mp hn
      exact ⟨some (sf, none), rfl, ⟨hs, by omega⟩, by simp [SmallFraction], by
        rw [secondsMicros]
        exact Int.add_zero _⟩
    · obtain ⟨n, hn, heq⟩ := Option.map_eq_some_iff.mp h
      obtain ⟨rfl, rfl⟩ := Prod.mk.inj heq
      obtain ⟨hs, -, rfl⟩ := num_eq_some.mp hn
      obtain ⟨rfl, -⟩ := splitOnce_eq_some.mp hsplit
      refine ⟨some (s, some f), rfl, ⟨⟨hs, by omega⟩, hdigits⟩, ?_, rfl⟩
      rintro s' f' heq
      obtain ⟨rfl, hf⟩ := Prod.mk.inj (Option.some.inj heq)
      rwa [← Option.some.inj hf]

theorem parseSeconds_render {second : Option (List Char × Option (List Char))}
    (h : SecondsProper second) (hsmall : SmallFraction second) :
    ∃ sec frac z, parseSeconds (second.map renderSeconds) = some (sec, frac) ∧ sec ≤ 59 ∧
      parseFraction frac = some z ∧ sec * 1000000 + z = secondsMicros second := by
  rcases second with _ | ⟨s, _ | f⟩
  · exact ⟨0, [], 0, rfl, by decide, rfl, rfl⟩
  · have hs : InRange s 59 := h
    refine ⟨number s, [], 0, ?_, by exact_mod_cast hs.2, rfl, Int.add_zero _⟩
    rw [Option.map_some, renderSeconds, parseSeconds_plain hs.1, hs.num (by decide)]
    rfl
  · obtain ⟨hs, hf⟩ : InRange s 59 ∧ _ := h
    refine ⟨number s, f, fractionMicros f, ?_, by exact_mod_cast hs.2,
      parseFraction_eq hf (hsmall s f rfl), rfl⟩
    rw [Option.map_some, renderSeconds, parseSeconds_fraction hs.1, hs.num (by decide)]
    rfl

theorem renderSeconds_notMem {s : List Char × Option (List Char)} (h : SecondsProper (some s))
    {c : Char} (hc : c.isDigit = false) (hdot : c ≠ '.') : c ∉ renderSeconds s := by
  rcases s with ⟨s, _ | f⟩
  · have hs : InRange s 59 := h
    exact hs.1.notMem hc
  · obtain ⟨hs, hf⟩ : InRange s 59 ∧ _ := h
    rw [renderSeconds, List.mem_append, List.mem_cons, not_or, not_or]
    refine ⟨hs.1.notMem hc, hdot, fun hmem ↦ ?_⟩
    rw [hf c hmem] at hc
    cases hc

theorem splitOn_clock {k : Clock} (h : k.Proper) :
    k.render.splitOn ':' = k.hour :: k.minute :: (k.second.map renderSeconds).toList := by
  have hcolon : ':'.isDigit = false := by decide
  obtain ⟨hhour, hminute, hsecond⟩ := h
  rcases k with ⟨hour, minute, _ | s⟩
  · rw [Clock.render, List.splitOn_append_cons_self_of_not_mem (hhour.1.notMem hcolon),
      List.append_nil, List.splitOn_eq_singleton (hminute.1.notMem hcolon)]
    rfl
  · rw [Clock.render, List.splitOn_append_cons_self_of_not_mem (hhour.1.notMem hcolon)]
    dsimp only
    rw [List.splitOn_append_cons_self_of_not_mem (hminute.1.notMem hcolon),
      List.splitOn_eq_singleton (renderSeconds_notMem hsecond hcolon (by decide))]
    rfl

/-- **A clock time of the parser**: fields of digits in range, and a fraction that is small. -/
theorem parseClock_eq_some {c : List Char} {t : ℤ} :
    parseClock c = some t ↔
      ∃ k : Clock, c = k.render ∧ k.Proper ∧ SmallFraction k.second ∧ t = k.micros := by
  constructor
  · intro h
    rw [parseClock] at h
    simp only [Option.bind_eq_bind, Option.bind_eq_some_iff] at h
    obtain ⟨H, hH, h', hh, M, hM, m', hm, ⟨sec, frac⟩, hsec, h⟩ := h
    split_ifs at h with hbad
    simp only [not_or, not_lt, Option.not_isSome_iff_eq_none] at hbad
    obtain ⟨hnone, hhour, hminute, hsecond⟩ := hbad
    obtain ⟨z, hz, h⟩ := Option.bind_eq_some_iff.mp h
    obtain ⟨hHd, -, rfl⟩ := num_eq_some.mp hh
    obtain ⟨hMd, -, rfl⟩ := num_eq_some.mp hm
    obtain ⟨second, hsplit, hproper, hsmall, hmicros⟩ := of_parseSeconds hsec hsecond hz
    refine ⟨⟨H, M, second⟩, ?_, ⟨⟨hHd, by exact_mod_cast hhour⟩,
      ⟨hMd, by exact_mod_cast hminute⟩, hproper⟩, hsmall, ?_⟩
    · have hfields : c.splitOn ':' = H :: M :: (second.map renderSeconds).toList := by
        rw [← hsplit]
        rcases hf : c.splitOn ':' with _ | ⟨x, _ | ⟨y, _ | ⟨w, _ | ⟨v, l⟩⟩⟩⟩ <;> rw [hf] at hH hM hnone
        · cases hH
        · cases hM
        · simp_all
        · simp_all
        · cases hnone
      have hjoin : [':'].intercalate (c.splitOn ':') = c := List.intercalate_splitOn ':'
      rw [hfields] at hjoin
      rw [← hjoin, Clock.render]
      cases second <;> simp [List.intercalate]
    · have ht := (Option.some.inj h).symm
      rw [Clock.micros, ← hmicros, ht]
      ring
  · rintro ⟨k, rfl, hk, hsmall, rfl⟩
    obtain ⟨sec, frac, z, hsec, hle, hz, hmicros⟩ := parseSeconds_render hk.2.2 hsmall
    have hthird : (k.second.map renderSeconds).toList[0]? = k.second.map renderSeconds := by
      cases k.second <;> rfl
    have hfourth : (k.second.map renderSeconds).toList[1]? = none := by
      cases k.second <;> rfl
    rw [parseClock]
    simp only [splitOn_clock hk, List.getElem?_cons_zero, List.getElem?_cons_succ,
      Option.bind_eq_bind, Option.bind_some, hk.1.num (by decide), hk.2.1.num (by decide), hthird,
      hfourth, hsec]
    have hhour := hk.1.2
    have hminute := hk.2.1.2
    rw [if_neg (by simp only [Option.isSome_none, Bool.false_eq_true, false_or]; omega), hz]
    refine congrArg some ?_
    rw [Clock.micros, ← hmicros]
    ring

/-! ## Offsets

An offset is found by the last sign in the text, or by the letter at its end. A clock time contains
neither, so the split is where the offset begins. -/

theorem Clock.Proper.notMem {k : Clock} (h : k.Proper) {c : Char} (hc : c.isDigit = false)
    (hdot : c ≠ '.') (hcolon : c ≠ ':') : c ∉ k.render := by
  obtain ⟨hhour, hminute, hsecond⟩ := h
  rw [Clock.render, List.mem_append, List.mem_cons, List.mem_append, not_or, not_or, not_or]
  refine ⟨hhour.1.notMem hc, hcolon, hminute.1.notMem hc, ?_⟩
  rcases k with ⟨hour, minute, _ | s⟩
  · simp
  · dsimp only
    rw [List.mem_cons, not_or]
    exact ⟨hcolon, renderSeconds_notMem hsecond hc hdot⟩

theorem getLast?_eq_some_iff {l : List Char} {c : Char} :
    l.getLast? = some c ↔ ∃ a, l = a ++ [c] := by
  constructor
  · intro h
    have hne : l ≠ [] := fun hnil ↦ by
      rw [hnil] at h
      cases h
    rw [List.getLast?_eq_some_getLast hne, Option.some.injEq] at h
    exact ⟨l.dropLast, by rw [← h, List.dropLast_append_getLast hne]⟩
  · rintro ⟨a, rfl⟩
    exact List.getLast?_concat

theorem getLast?_offset (c : List Char) (sign : Char) {hour minute : List Char}
    (h : Digital minute) {d : Char} (hd : d.isDigit = false) :
    (c ++ sign :: (hour ++ ':' :: minute)).getLast? ≠ some d := by
  intro hlast
  obtain ⟨l, x, rfl⟩ : ∃ l x, minute = l ++ [x] :=
    ⟨minute.dropLast, minute.getLast h.1, (List.dropLast_append_getLast h.1).symm⟩
  have hx := h.2 x (by simp)
  have hsplit : c ++ sign :: (hour ++ ':' :: (l ++ [x])) =
      (c ++ sign :: (hour ++ ':' :: l)) ++ [x] := by simp
  rw [hsplit, List.getLast?_concat, Option.some.injEq] at hlast
  rw [hlast, hd] at hx
  cases hx

theorem of_splitOffset {r c : List Char} {o : ℤ} (h : splitOffset r = some (c, o)) :
    ∃ z : Zone, r = c ++ z.render ∧ z.Proper ∧ o = z.micros := by
  rw [splitOffset] at h
  split_ifs at h with hz
  · obtain ⟨rfl, rfl⟩ := Prod.mk.inj (Option.some.inj h)
    rcases hz with hz | hz
    all_goals
      obtain ⟨a, rfl⟩ := getLast?_eq_some_iff.mp hz
      rw [List.dropLast_concat]
    · exact ⟨.utc 'Z', rfl, .inl rfl, rfl⟩
    · exact ⟨.utc 'z', rfl, .inr rfl, rfl⟩
  · rcases hl : splitLast isSign r with _ | ⟨a, sign, off⟩ <;> rw [hl] at h
    · obtain ⟨rfl, rfl⟩ := Prod.mk.inj (Option.some.inj h)
      exact ⟨.local, (List.append_nil r).symm, trivial, rfl⟩
    · obtain ⟨rfl, hsign⟩ := splitLast_eq_some hl
      simp only [Option.bind_eq_bind, Option.bind_eq_some_iff] at h
      obtain ⟨⟨H, M⟩, hHM, h', hh, m', hm, h⟩ := h
      obtain ⟨rfl, -⟩ := splitOnce_eq_some.mp hHM
      obtain ⟨hH, -, rfl⟩ := num_eq_some.mp hh
      obtain ⟨hM, -, rfl⟩ := num_eq_some.mp hm
      by_cases hbad : (23 : ℤ) < number H ∨ (59 : ℤ) < number M
      · rw [if_pos hbad] at h
        cases h
      · rw [if_neg hbad] at h
        obtain ⟨rfl, rfl⟩ := Prod.mk.inj (Option.some.inj h)
        rw [not_or, not_lt, not_lt] at hbad
        exact ⟨.offset sign H M, rfl, ⟨by simpa [isSign] using hsign,
          ⟨hH, by exact_mod_cast hbad.1⟩, hM, by exact_mod_cast hbad.2⟩, rfl⟩

theorem splitOffset_render {k : Clock} (hk : k.Proper) {z : Zone} (hz : z.Proper) :
    splitOffset (k.render ++ z.render) = some (k.render, z.micros) := by
  have hsigns : ∀ c ∈ k.render, isSign c = false := fun c hc ↦ by
    rw [isSign, Bool.or_eq_false_iff, beq_eq_false_iff_ne, beq_eq_false_iff_ne]
    refine ⟨?_, ?_⟩ <;> rintro rfl
    · exact hk.notMem (by decide) (by decide) (by decide) hc
    · exact hk.notMem (by decide) (by decide) (by decide) hc
  have hletter : ∀ d, d.isDigit = false → d ≠ '.' → d ≠ ':' → k.render.getLast? ≠ some d := by
    intro d hd hdot hcolon hlast
    obtain ⟨a, ha⟩ := getLast?_eq_some_iff.mp hlast
    exact hk.notMem hd hdot hcolon (by rw [ha]; simp)
  rw [splitOffset]
  cases z with
  | «local» =>
    rw [Zone.render, List.append_nil, if_neg, splitLast_eq_none hsigns]
    · rfl
    · rw [not_or]
      exact ⟨hletter _ (by decide) (by decide) (by decide),
        hletter _ (by decide) (by decide) (by decide)⟩
  | utc c =>
    have hc : c = 'Z' ∨ c = 'z' := hz
    rw [Zone.render, List.getLast?_concat, if_pos (by simpa using hc), List.dropLast_concat]
    rfl
  | offset sign H M =>
    obtain ⟨hsign, hH, hM⟩ := hz
    have hdigits : ∀ {l : List Char}, Digital l → ∀ c ∈ l, isSign c = false := by
      intro l hl c hc
      have hdigit := hl.2 c hc
      rw [isSign, Bool.or_eq_false_iff, beq_eq_false_iff_ne, beq_eq_false_iff_ne]
      refine ⟨?_, ?_⟩ <;> rintro rfl <;> exact absurd hdigit (by decide)
    have hoff : ∀ c ∈ H ++ ':' :: M, isSign c = false := by
      intro c hc
      rcases List.mem_append.mp hc with hc | hc
      · exact hdigits hH.1 c hc
      · rcases List.mem_cons.mp hc with rfl | hc
        · decide
        · exact hdigits hM.1 c hc
    have hlast : splitLast isSign (k.render ++ sign :: (H ++ ':' :: M)) =
        some (k.render, sign, H ++ ':' :: M) := splitLast_append _ (by simpa [isSign] using hsign) hoff
    rw [Zone.render, if_neg (by
      rw [not_or]
      exact ⟨getLast?_offset _ _ hM.1 (by decide), getLast?_offset _ _ hM.1 (by decide)⟩),
      hlast]
    dsimp only
    have honce : splitOnce ':' (H ++ ':' :: M) = some (H, M) :=
      splitOnce_eq_some.mpr ⟨rfl, hH.1.notMem (by decide)⟩
    simp only [honce, hH.num (by decide), hM.num (by decide), Option.bind_eq_bind, Option.bind_some]
    rw [if_neg]
    · rfl
    · have hhour := hH.2
      have hminute := hM.2
      omega

/-- **What the parser takes after a date.** -/
theorem parseTime_eq_some {r : List Char} {t o : ℤ} :
    parseTime r = some (t, o) ↔
      ∃ T : Time, r = T.render ∧ T.Proper ∧ SmallFraction T.clock.second ∧
        t = T.clock.micros ∧ o = T.zone.micros := by
  constructor
  · intro h
    rw [parseTime] at h
    simp only [Option.bind_eq_bind, Option.bind_eq_some_iff] at h
    obtain ⟨rest, hrest, ⟨c, o'⟩, hoffset, t', hclock, heq⟩ := h
    obtain ⟨rfl, rfl⟩ := Prod.mk.inj (Option.some.inj heq)
    obtain ⟨z, rfl, hz, rfl⟩ := of_splitOffset hoffset
    obtain ⟨k, rfl, hk, hsmall, rfl⟩ := parseClock_eq_some.mp hclock
    cases r with
    | nil => cases hrest
    | cons s r =>
      rw [stripSeparator] at hrest
      split_ifs at hrest with hs
      obtain rfl := Option.some.inj hrest
      exact ⟨⟨s, k, z⟩, rfl, ⟨hs, hk, hz⟩, hsmall, rfl, rfl⟩
  · rintro ⟨⟨s, k, z⟩, rfl, ⟨hs, hk, hz⟩, hsmall, rfl, rfl⟩
    have hclock : parseClock k.render = some k.micros :=
      parseClock_eq_some.mpr ⟨k, rfl, hk, hsmall, rfl⟩
    rw [parseTime, Time.render, stripSeparator, if_pos hs]
    simp only [Option.bind_eq_bind, Option.bind_some, splitOffset_render hk hz, hclock]
    rfl

/-! ## One reading at most -/

theorem renderSeconds_injective {s s' : List Char × Option (List Char)}
    (h : SecondsProper (some s)) (h' : SecondsProper (some s'))
    (heq : renderSeconds s = renderSeconds s') : s = s' := by
  have hplain : ∀ {l : List Char}, InRange l 59 → '.' ∉ l := fun hl ↦ hl.1.notMem (by decide)
  rcases s with ⟨s, _ | f⟩ <;> rcases s' with ⟨s', _ | f'⟩
  · exact congrArg (·, none) heq
  · refine absurd ?_ (hplain h)
    have heq : s = s' ++ '.' :: f' := heq
    rw [heq]
    simp
  · refine absurd ?_ (hplain h')
    have heq : s ++ '.' :: f = s' := heq
    rw [← heq]
    simp
  · obtain ⟨rfl, rfl⟩ := append_cons_inj (hplain h.1) (hplain h'.1) heq
    rfl

theorem Clock.render_injective {k k' : Clock} (h : k.Proper) (h' : k'.Proper)
    (heq : k.render = k'.render) : k = k' := by
  have hfields := splitOn_clock h
  rw [heq, splitOn_clock h'] at hfields
  obtain ⟨hhour, hfields⟩ := List.cons.inj hfields
  obtain ⟨hminute, hfields⟩ := List.cons.inj hfields
  rcases k with ⟨hour, minute, second⟩
  rcases k' with ⟨hour', minute', second'⟩
  obtain rfl : hour' = hour := hhour
  obtain rfl : minute' = minute := hminute
  rcases second with _ | s <;> rcases second' with _ | s'
  · rfl
  · cases hfields
  · cases hfields
  · obtain ⟨hs, -⟩ := List.cons.inj hfields
    rw [renderSeconds_injective h.2.2 h'.2.2 hs.symm]

theorem Zone.render_injective {z z' : Zone} (h : z.Proper) (h' : z'.Proper)
    (heq : z.render = z'.render) : z = z' := by
  cases z <;> cases z' <;> first
    | rfl
    | (simp [Zone.render] at heq; done)
    | skip
  case utc.utc c c' =>
    obtain ⟨rfl, -⟩ := List.cons.inj heq
    rfl
  case offset.offset sign H M sign' H' M' =>
    obtain ⟨rfl, htail⟩ := List.cons.inj heq
    have hcolon : ':'.isDigit = false := by decide
    obtain ⟨rfl, rfl⟩ := append_cons_inj (h.2.1.1.notMem hcolon) (h'.2.1.1.notMem hcolon) htail
    rfl

theorem Time.render_injective {t t' : Time} (h : t.Proper) (h' : t'.Proper)
    (heq : t.render = t'.render) : t = t' := by
  obtain ⟨hsep, hrest⟩ := List.cons.inj heq
  have hoffset := splitOffset_render h.2.1 h.2.2
  rw [hrest, splitOffset_render h'.2.1 h'.2.2] at hoffset
  have hclock := (Prod.mk.inj (Option.some.inj hoffset)).1
  rw [hclock] at hrest
  have hk := Clock.render_injective h.2.1 h'.2.1 hclock.symm
  have hz := Zone.render_injective h.2.2 h'.2.2 (List.append_cancel_left hrest)
  rcases t with ⟨s, k, z⟩
  rcases t' with ⟨s', k', z'⟩
  subst hsep hk hz
  rfl

/-- The date takes ten characters. -/
def Stamp.Ten (s : Stamp) : Prop := s.year.length + s.month.length + s.day.length = 8

theorem Stamp.length_date {s : Stamp} (h : s.Ten) : s.date.length = 10 := by
  have hten : s.year.length + s.month.length + s.day.length = 8 := h
  rw [Stamp.date, List.length_append, List.length_cons, List.length_append, List.length_cons]
  omega

/-- **A text is that of one timestamp at most.** -/
theorem Stamp.render_injective {s s' : Stamp} (h : s.Proper) (h' : s'.Proper) (hten : s.Ten)
    (hten' : s'.Ten) (heq : s.render = s'.render) : s = s' := by
  obtain ⟨hdate, htime⟩ := List.append_inj heq (by rw [s.length_date hten, s'.length_date hten'])
  have hparts := splitOn_date h.1 h.2.1 h.2.2.1
  have hparts' := splitOn_date h'.1 h'.2.1 h'.2.2.1
  rw [← Stamp.date] at hparts hparts'
  rw [hdate, hparts'] at hparts
  rcases s with ⟨Y, M, D, t⟩
  rcases s' with ⟨Y', M', D', t'⟩
  obtain ⟨rfl, hparts⟩ := List.cons.inj hparts
  obtain ⟨rfl, hparts⟩ := List.cons.inj hparts
  obtain ⟨rfl, -⟩ := List.cons.inj hparts
  rcases t with _ | t <;> rcases t' with _ | t'
  · rfl
  · cases htime
  · cases htime
  · rw [Time.render_injective (h.2.2.2.2 t rfl) (h'.2.2.2.2 t' rfl) htime]

/-! ## Bounds

A day number is compared with the range of microseconds. Only dates with six digits for the year
come near its end. -/

theorem fractionMicros_lt {f : List Char} (h : ∀ c ∈ f, c.isDigit = true) :
    fractionMicros f < 10 ^ 6 := by
  rw [fractionMicros, Nat.div_lt_iff_lt_mul (by positivity)]
  by_cases hnil : f = []
  · subst hnil
    decide
  · have hlt := number_lt ⟨hnil, h⟩
    rw [Nat.mul_comm]
    exact Nat.mul_lt_mul_of_pos_left hlt (by decide)

theorem Clock.micros_bounds {k : Clock} (h : k.Proper) : 0 ≤ k.micros ∧ k.micros < 86400000000 := by
  obtain ⟨⟨-, hhour⟩, ⟨-, hminute⟩, hsecond⟩ := h
  have hseconds : 0 ≤ secondsMicros k.second ∧ secondsMicros k.second < 60000000 := by
    rcases k with ⟨hour, minute, _ | ⟨s, _ | f⟩⟩
    · exact ⟨le_rfl, by simp [secondsMicros]⟩
    · have hs : number s ≤ 59 := hsecond.2
      rw [secondsMicros]
      omega
    · have hs : number s ≤ 59 := hsecond.1.2
      have hf := fractionMicros_lt hsecond.2
      rw [secondsMicros]
      omega
  rw [Clock.micros]
  omega

theorem Zone.micros_bounds {z : Zone} (h : z.Proper) :
    -86400000000 < z.micros ∧ z.micros < 86400000000 := by
  cases z with
  | «local» => exact ⟨by decide, by decide⟩
  | utc c => simp [Zone.micros]
  | offset sign H M =>
    obtain ⟨-, ⟨-, hH⟩, -, hM⟩ := h
    rw [Zone.micros]
    split_ifs <;> omega

theorem dayNumber_bounds {y m d : ℕ} (h : Calendar.IsDate y m d) :
    Calendar.daysBeforeYear y ≤ Calendar.dayNumber y m d ∧
      Calendar.dayNumber y m d < Calendar.daysBeforeYear y + 372 := by
  obtain ⟨h1, h12, hd, hdays⟩ := h
  have hmonth : Calendar.daysInMonth y m ≤ 31 := by
    unfold Calendar.daysInMonth
    split
    · split_ifs <;> decide
    all_goals decide
  rw [Calendar.dayNumber, Calendar.daysBeforeMonth_eq h1 h12]
  split_ifs <;> omega

theorem fits_of_year {s : Stamp} (h : s.Proper) (hyear : s.year.length = 4) :
    Int64.Fits s.micros := by
  have hy := number_lt h.1
  have hbefore := Calendar.daysBeforeYear_eq (number s.year)
  have hnumber := dayNumber_bounds h.2.2.2.1
  rw [hyear] at hy
  have htime : ∃ x : ℤ, s.micros =
      Calendar.daysSince1970 (number s.year) (number s.month) (number s.day) * 86400000000 + x ∧
      -86400000000 < x ∧ x < 172800000000 := by
    refine ⟨_, rfl, ?_⟩
    rcases ht : s.time with _ | t
    · exact ⟨by decide, by decide⟩
    · have hproper := h.2.2.2.2 t ht
      have hclock := Clock.micros_bounds hproper.2.1
      have hzone := Zone.micros_bounds hproper.2.2
      dsimp only
      omega
  obtain ⟨x, hx, hlow, hhigh⟩ := htime
  rw [hx, Calendar.daysSince1970, Calendar.dayNumber_epoch]
  unfold Int64.Fits RunningSum.Within
  omega

/-- A date of ten characters is not the last that fits: the first of those days would need two
digits after six for the year. -/
theorem days_le_of_fits {Y M D : List Char} (hY : Digital Y) (hM : Digital M) (hD : Digital D)
    (hten : Y.length + M.length + D.length = 8)
    (hdate : Calendar.IsDate (number Y) (number M) (number D))
    (hfits : Int64.Fits (Calendar.daysSince1970 (number Y) (number M) (number D) * 86400000000)) :
    -719528 ≤ Calendar.daysSince1970 (number Y) (number M) (number D) ∧
      Calendar.daysSince1970 (number Y) (number M) (number D) ≤ 106751990 := by
  have hnumber := dayNumber_bounds hdate
  have hbefore := Calendar.daysBeforeYear_eq (number Y)
  obtain ⟨h1, h12, hd1, -⟩ := hdate
  have hmonth := @Calendar.daysBeforeMonth_eq (number Y) _ h1 h12
  have hday : Calendar.dayNumber (number Y) (number M) (number D) =
      Calendar.daysBeforeYear (number Y) + Calendar.daysBeforeMonth (number Y) (number M) +
        (number D - 1) := rfl
  rw [Calendar.daysSince1970, Calendar.dayNumber_epoch] at hfits ⊢
  unfold Int64.Fits RunningSum.Within at hfits
  refine ⟨by omega, ?_⟩
  by_contra hlate
  have heq : Calendar.dayNumber (number Y) (number M) (number D) = 107471519 := by omega
  have hyear : 100000 ≤ number Y := by omega
  have hlong : 5 < Y.length := by
    by_contra hshort
    have hlt := number_lt hY
    have hpow : 10 ^ Y.length ≤ 10 ^ 5 := Nat.pow_le_pow_right (by decide) (by omega)
    omega
  have hMpos := List.length_pos_iff.mpr hM.1
  have hDpos := List.length_pos_iff.mpr hD.1
  have hDlt := number_lt hD
  rw [show D.length = 1 by omega] at hDlt
  have hone : number Y = 294247 := by
    split_ifs at hmonth <;> omega
  split_ifs at hmonth <;> omega

/-! ## When the parser is right -/

/-- The tenth byte of a longer text ends inside a character. -/
def Torn (s : List Char) : Prop := 10 < Utf8.size s ∧ Utf8.splitAt s 10 = none

/-- The text begins with a date of ten characters whose microseconds overflow. -/
def Late (s : List Char) : Prop :=
  ∃ Y M D rest, s = Y ++ '-' :: (M ++ '-' :: D) ++ rest ∧ Digital Y ∧ Digital M ∧ Digital D ∧
    Y.length + M.length + D.length = 8 ∧ Calendar.IsDate (number Y) (number M) (number D) ∧
    ¬ Int64.Fits (Calendar.daysSince1970 (number Y) (number M) (number D) * 86400000000)

/-- What the parser takes: the date has ten characters, a fraction fits the integer parser, and the
result is in range. -/
def Stamp.Tolerated (s : Stamp) : Prop :=
  s.Proper ∧ s.Ten ∧ (∀ t, s.time = some t → SmallFraction t.clock.second) ∧ Int64.Fits s.micros

def Zone.Documented : Zone → Prop
  | .local | .utc _ => True
  | .offset _ hour minute => hour.length = 2 ∧ minute.length = 2

def SecondsDocumented : Option (List Char × Option (List Char)) → Prop
  | none => True
  | some (s, none) => s.length = 2
  | some (s, some f) => s.length = 2 ∧ f ≠ []

def Time.Documented (t : Time) : Prop :=
  t.clock.hour.length = 2 ∧ t.clock.minute.length = 2 ∧ SecondsDocumented t.clock.second ∧
    t.zone.Documented

/-- The documented form: every field has its width, and a dot is followed by a digit. -/
def Stamp.Documented (s : Stamp) : Prop :=
  s.Proper ∧ s.year.length = 4 ∧ s.month.length = 2 ∧ s.day.length = 2 ∧
    ∀ t, s.time = some t → t.Documented

/-- What the parser owes: no panic, and the microseconds of a timestamp exactly for the trimmed
texts of the documented form. -/
structure Right (text : List Char) : Prop where
  returns : ∃ o, parseTimestamp text = .ok o
  value : ∀ t : Int64, parseTimestamp text = .ok (some t) ↔
    ∃ s : Stamp, trim text = s.render ∧ s.Documented ∧ t.toInt = s.micros

theorem Stamp.Documented.ten {s : Stamp} (h : s.Documented) : s.Ten := by
  obtain ⟨-, hy, hm, hd, -⟩ := h
  rw [Stamp.Ten, hy, hm, hd]

/-- A text is torn, or split into its date and the rest. -/
theorem splitDate_cases (s : List Char) :
    (Torn s ∧ ∃ message, splitDate s = .error (.panic message)) ∨
      ¬ Torn s ∧ ∃ date rest, s = date ++ rest ∧ splitDate s = .ok (date, rest) := by
  rw [splitDate]
  by_cases hlen : 10 < Utf8.size s
  · rw [if_pos hlen]
    rcases hsplit : Utf8.splitAt s 10 with _ | ⟨a, b⟩
    · exact .inl ⟨⟨hlen, hsplit⟩, _, rfl⟩
    · have hnot : ¬ Torn s := fun h ↦ by
        rw [h.2] at hsplit
        cases hsplit
      exact .inr ⟨hnot, a, b, (Utf8.splitAt_eq_some.mp hsplit).1, rfl⟩
  · rw [if_neg hlen]
    exact .inr ⟨fun h ↦ hlen h.1, s, [], (List.append_nil s).symm, rfl⟩

theorem splitDate_append {date rest : List Char} (h : Utf8.size date = 10) :
    splitDate (date ++ rest) = .ok (date, rest) := by
  rw [splitDate]
  by_cases hlen : 10 < Utf8.size (date ++ rest)
  · rw [if_pos hlen, Utf8.splitAt_eq_some.mpr ⟨rfl, h⟩]
    rfl
  · rw [Utf8.size_append, h] at hlen
    obtain rfl : rest = [] := Utf8.size_eq_zero.mp (by omega)
    rw [if_neg (by rw [List.append_nil, h]; decide), List.append_nil]

theorem checked_of_fits {z : ℤ} (h : Int64.Fits z) : checked z = .ok z := if_pos h

/-- The microseconds of a day early enough, with what comes after its date. -/
theorem addTime_of_fits {days : ℤ} (hlow : -719528 ≤ days) (hhigh : days ≤ 106751990)
    (rest : List Char) :
    addTime days rest = .ok (
      if rest = [] then some (.ofInt (days * 86400000000))
      else (parseTime rest).bind fun p ↦ Int64.tryFrom (days * 86400000000 + p.1 - p.2)) := by
  have hday : Int64.Fits (days * 86400000000) := by
    unfold Int64.Fits RunningSum.Within
    omega
  rw [addTime, checked_of_fits hday, Except.ok_bind]
  by_cases hrest : rest = []
  · rw [if_pos hrest, if_pos hrest]
    rfl
  rw [if_neg hrest, if_neg hrest]
  rcases htime : parseTime rest with _ | ⟨time, offset⟩
  · rfl
  · obtain ⟨T, -, hT, -, rfl, rfl⟩ := parseTime_eq_some.mp htime
    have hbounds := Clock.micros_bounds hT.2.1
    have hsum : Int64.Fits (days * 86400000000 + T.clock.micros) := by
      unfold Int64.Fits RunningSum.Within
      omega
    dsimp only
    rw [checked_of_fits hsum]
    rfl

theorem Stamp.micros_eq (s : Stamp) :
    s.micros = Calendar.daysSince1970 (number s.year) (number s.month) (number s.day) *
      86400000000 + match s.time with
        | none => 0
        | some t => t.clock.micros - t.zone.micros := rfl

/-- What comes after the date. -/
def Stamp.timeText (s : Stamp) : List Char :=
  match s.time with
  | none => []
  | some t => t.render

theorem Stamp.splitDate_render {s : Stamp} (h : s.Proper) (hten : s.Ten) :
    splitDate s.render = .ok (s.date, s.timeText) := by
  have hsize : Utf8.size s.date = 10 := by
    have hten : s.year.length + s.month.length + s.day.length = 8 := hten
    rw [Stamp.date, size_date h.1 h.2.1 h.2.2.1, hten]
  exact splitDate_append hsize

theorem Stamp.parseDate_date {s : Stamp} (h : s.Proper) (hten : s.Ten) :
    parseDate s.date = some ((number s.year : ℤ), (number s.month : ℤ), (number s.day : ℤ)) :=
  parseDate_eq_some.mpr
    ⟨_, _, _, rfl, h.1, h.2.1, h.2.2.1, hten, h.2.2.2.1, rfl, rfl, rfl⟩

/-- The parser on the text of a timestamp that takes ten characters for its date, if it is not too
late. -/
theorem Stamp.parseTimestamp_render {s : Stamp} {text : List Char} (htext : trim text = s.render)
    (h : s.Proper) (hten : s.Ten) (hlate : ¬ Late (trim text)) :
    parseTimestamp text = .ok (
      if s.timeText = [] then some (.ofInt s.micros)
      else (parseTime s.timeText).bind fun p ↦ Int64.tryFrom
        (Calendar.daysSince1970 (number s.year) (number s.month) (number s.day) * 86400000000 +
          p.1 - p.2)) := by
  have hfits : Int64.Fits
      (Calendar.daysSince1970 (number s.year) (number s.month) (number s.day) * 86400000000) := by
    by_contra hnot
    exact hlate ⟨_, _, _, _, htext, h.1, h.2.1, h.2.2.1, hten, h.2.2.2.1, hnot⟩
  obtain ⟨hlow, hhigh⟩ := days_le_of_fits h.1 h.2.1 h.2.2.1 hten h.2.2.2.1 hfits
  rw [parseTimestamp, htext, s.splitDate_render h hten, Except.ok_bind]
  dsimp only
  rw [s.parseDate_date h hten]
  dsimp only
  rw [daysFromCivil_eq h.2.2.2.1, addTime_of_fits hlow hhigh]
  by_cases hnil : s.timeText = []
  · have htime : s.time = none := by
      rcases ht : s.time with _ | t
      · rfl
      · rw [Stamp.timeText, ht] at hnil
        cases hnil
    rw [if_pos hnil, if_pos hnil, s.micros_eq, htime]
    simp
  · rw [if_neg hnil, if_neg hnil]

theorem Stamp.Tolerated.parse {s : Stamp} {text : List Char} (htext : trim text = s.render)
    (h : s.Tolerated) (hlate : ¬ Late (trim text)) :
    parseTimestamp text = .ok (some (.ofInt s.micros)) := by
  obtain ⟨hproper, hten, hsmall, hfits⟩ := h
  rw [s.parseTimestamp_render htext hproper hten hlate]
  rcases ht : s.time with _ | t
  · rw [if_pos (by rw [Stamp.timeText, ht])]
  · have hparse : parseTime t.render = some (t.clock.micros, t.zone.micros) :=
      parseTime_eq_some.mpr ⟨t, rfl, hproper.2.2.2.2 t ht, hsmall t ht, rfl, rfl⟩
    have htimeText : s.timeText = t.render := by rw [Stamp.timeText, ht]
    have hne : t.render ≠ [] := by simp [Time.render]
    rw [htimeText, if_neg hne, hparse, Option.bind_some]
    rw [s.micros_eq, ht] at hfits ⊢
    dsimp only at hfits ⊢
    rw [← add_sub_assoc] at hfits ⊢
    rw [Int64.tryFrom_of_fits hfits]

/-- **The parser takes the tolerated timestamps alone**, unless the text is torn or late. -/
theorem parseTimestamp_ok {text : List Char} (htorn : ¬ Torn (trim text))
    (hlate : ¬ Late (trim text)) :
    ∃ o, parseTimestamp text = .ok o ∧ ∀ t : Int64, o = some t →
      ∃ s : Stamp, trim text = s.render ∧ s.Tolerated ∧ t.toInt = s.micros := by
  rcases splitDate_cases (trim text) with ⟨h, -⟩ | ⟨-, date, rest, htext, hsplit⟩
  · exact absurd h htorn
  rcases hparse : parseDate date with _ | ⟨y, m, d⟩
  · refine ⟨none, ?_, by simp⟩
    rw [parseTimestamp, hsplit, Except.ok_bind]
    dsimp only
    rw [hparse]
    rfl
  obtain ⟨Y, M, D, rfl, hY, hM, hD, hten, hreal, rfl, rfl, rfl⟩ := parseDate_eq_some.mp hparse
  have hfits : Int64.Fits
      (Calendar.daysSince1970 (number Y) (number M) (number D) * 86400000000) := by
    by_contra hnot
    exact hlate ⟨Y, M, D, rest, htext, hY, hM, hD, hten, hreal, hnot⟩
  obtain ⟨hlow, hhigh⟩ := days_le_of_fits hY hM hD hten hreal hfits
  rw [parseTimestamp, hsplit, Except.ok_bind]
  dsimp only
  rw [hparse]
  dsimp only
  rw [daysFromCivil_eq hreal, addTime_of_fits hlow hhigh]
  refine ⟨_, rfl, fun t ht ↦ ?_⟩
  by_cases hrest : rest = []
  · rw [if_pos hrest] at ht
    have hmicros : Stamp.micros ⟨Y, M, D, none⟩ =
        Calendar.daysSince1970 (number Y) (number M) (number D) * 86400000000 := add_zero _
    refine ⟨⟨Y, M, D, none⟩, by rw [htext, hrest]; rfl, ⟨⟨hY, hM, hD, hreal, by simp⟩, hten, by simp,
      hmicros ▸ hfits⟩, ?_⟩
    rw [← Option.some.inj ht, Int64.toInt_ofInt_of_fits hfits, hmicros]
  · rw [if_neg hrest] at ht
    obtain ⟨⟨time, offset⟩, htime, ht⟩ := Option.bind_eq_some_iff.mp ht
    obtain ⟨T, rfl, hT, hsmall, rfl, rfl⟩ := parseTime_eq_some.mp htime
    have hmicros : t.toInt = Stamp.micros ⟨Y, M, D, some T⟩ := by
      rw [Int64.tryFrom_eq_some.mp ht, Stamp.micros_eq]
      exact add_sub_assoc _ _ _
    refine ⟨⟨Y, M, D, some T⟩, htext, ⟨⟨hY, hM, hD, hreal, ?_⟩, hten, ?_, ?_⟩, hmicros⟩
    · rintro T' heq
      rwa [← Option.some.inj heq]
    · rintro T' heq
      rwa [← Option.some.inj heq]
    · rw [← hmicros]
      exact t.fits_toInt

/-! ### The exact condition -/

theorem panics_of_torn {text : List Char} (h : Torn (trim text)) :
    ∃ message, parseTimestamp text = .error (.panic message) := by
  rcases splitDate_cases (trim text) with ⟨-, message, hsplit⟩ | ⟨hnot, -⟩
  · exact ⟨message, by rw [parseTimestamp, hsplit]; rfl⟩
  · exact absurd h hnot

theorem panics_of_late {text : List Char} (h : Late (trim text)) :
    ∃ message, parseTimestamp text = .error (.panic message) := by
  obtain ⟨Y, M, D, rest, htext, hY, hM, hD, hten, hreal, hnot⟩ := h
  have hsplit : splitDate (trim text) = .ok (Y ++ '-' :: (M ++ '-' :: D), rest) := by
    rw [htext]
    exact splitDate_append (by rw [size_date hY hM hD, hten])
  have hparse := parseDate_eq_some.mpr ⟨Y, M, D, rfl, hY, hM, hD, hten, hreal, rfl, rfl, rfl⟩
  refine ⟨"attempt to calculate with overflow", ?_⟩
  rw [parseTimestamp, hsplit, Except.ok_bind]
  dsimp only
  rw [hparse]
  dsimp only
  rw [daysFromCivil_eq hreal, addTime, checked, if_neg hnot]
  rfl

/-- **The parser is right on a text exactly when** it is not torn and not late, and the fields it
tolerates there are those of the documented form. -/
theorem parseTimestamp_right_iff (text : List Char) :
    Right text ↔ ¬ Torn (trim text) ∧ ¬ Late (trim text) ∧
      ∀ s : Stamp, trim text = s.render → (s.Tolerated ↔ s.Documented) := by
  constructor
  · intro hright
    obtain ⟨o, ho⟩ := hright.returns
    have htorn : ¬ Torn (trim text) := fun h ↦ by
      obtain ⟨message, hpanic⟩ := panics_of_torn h
      rw [ho] at hpanic
      cases hpanic
    have hlate : ¬ Late (trim text) := fun h ↦ by
      obtain ⟨message, hpanic⟩ := panics_of_late h
      rw [ho] at hpanic
      cases hpanic
    refine ⟨htorn, hlate, fun s hs ↦ ⟨fun htolerated ↦ ?_, fun hdocumented ↦ ?_⟩⟩
    · obtain ⟨s', hs', hdocumented, -⟩ := (hright.value _).mp (htolerated.parse hs hlate)
      rwa [Stamp.render_injective htolerated.1 hdocumented.1 htolerated.2.1 hdocumented.ten
        (hs.symm.trans hs')]
    · have hfits := fits_of_year hdocumented.1 hdocumented.2.1
      have hparse := (hright.value _).mpr
        ⟨s, hs, hdocumented, Int64.toInt_ofInt_of_fits hfits⟩
      obtain ⟨o', ho', htakes⟩ := parseTimestamp_ok htorn hlate
      rw [hparse] at ho'
      obtain ⟨s', hs', htolerated, -⟩ := htakes _ (Except.ok.inj ho').symm
      rwa [Stamp.render_injective hdocumented.1 htolerated.1 hdocumented.ten htolerated.2.1
        (hs.symm.trans hs')]
  · rintro ⟨htorn, hlate, hsame⟩
    obtain ⟨o, ho, htakes⟩ := parseTimestamp_ok htorn hlate
    refine ⟨⟨o, ho⟩, fun t ↦ ⟨fun h ↦ ?_, ?_⟩⟩
    · rw [ho] at h
      obtain ⟨s, hs, htolerated, ht⟩ := htakes t (Except.ok.inj h)
      exact ⟨s, hs, (hsame s hs).mp htolerated, ht⟩
    · rintro ⟨s, hs, hdocumented, ht⟩
      rw [((hsame s hs).mpr hdocumented).parse hs hlate, ← ht, Int64.ofInt_toInt]

/-! ### Four texts -/

/-- A torn text, a late one, one with narrow fields, and one with a long fraction. -/
theorem parse_not_right :
    ¬ Right "2026-01-0é".toList ∧ ¬ Right "999999-1-1".toList ∧
      ¬ Right "2026-01-01 1:2".toList ∧
      ¬ Right "2026-01-01T00:00:00.99999999999999999999".toList := by
  have hdate : Calendar.IsDate (number "2026".toList) (number "01".toList) (number "01".toList) := by
    decide
  have hyear : Digital "2026".toList := by decide
  have hmonth : Digital "01".toList := by decide
  refine ⟨fun h ↦ ?_, fun h ↦ ?_, fun h ↦ ?_, fun h ↦ ?_⟩
  · obtain ⟨htorn, -, -⟩ := (parseTimestamp_right_iff _).mp h
    exact htorn ⟨by decide, by decide⟩
  · obtain ⟨-, hlate, -⟩ := (parseTimestamp_right_iff _).mp h
    refine hlate ⟨"999999".toList, ['1'], ['1'], [], by decide, by decide, by decide,
      by decide, by decide, by decide, ?_⟩
    have hbefore := Calendar.daysBeforeYear_eq 999999
    have hnumber := dayNumber_bounds (by decide : Calendar.IsDate 999999 1 1)
    have hyear : number "999999".toList = 999999 := by decide
    have hone : number ['1'] = 1 := by decide
    rw [hyear, hone, Calendar.daysSince1970, Calendar.dayNumber_epoch]
    unfold Int64.Fits RunningSum.Within
    omega
  · obtain ⟨-, -, hsame⟩ := (parseTimestamp_right_iff _).mp h
    have hproper : Stamp.Proper ⟨"2026".toList, "01".toList, "01".toList,
        some ⟨' ', ⟨['1'], ['2'], none⟩, .local⟩⟩ := by
      refine ⟨hyear, hmonth, hmonth, hdate, ?_⟩
      rintro t heq
      rw [← Option.some.inj heq]
      exact ⟨by decide, ⟨by decide, by decide, trivial⟩, trivial⟩
    have htolerated : Stamp.Tolerated _ :=
      ⟨hproper, rfl, by rintro t heq; rw [← Option.some.inj heq]; simp [SmallFraction],
        fits_of_year hproper rfl⟩
    have hdocumented := (hsame _ rfl).mp htolerated
    exact absurd (hdocumented.2.2.2.2 _ rfl).1 (by decide)
  · obtain ⟨-, -, hsame⟩ := (parseTimestamp_right_iff _).mp h
    have hfraction : ¬ number "99999999999999999999".toList < 2 ^ 63 := by decide
    have hproper : Stamp.Proper ⟨"2026".toList, "01".toList, "01".toList, some ⟨'T', ⟨"00".toList,
        "00".toList, some ("00".toList, some "99999999999999999999".toList)⟩, .local⟩⟩ := by
      refine ⟨hyear, hmonth, hmonth, hdate, ?_⟩
      rintro t heq
      rw [← Option.some.inj heq]
      exact ⟨by decide, ⟨by decide, by decide, by decide, List.all_eq_true.mp (by decide)⟩,
        trivial⟩
    have htolerated := (hsame _ rfl).mpr ⟨hproper, rfl, rfl, rfl, by
      rintro t heq
      rw [← Option.some.inj heq]
      exact ⟨rfl, rfl, ⟨rfl, by decide⟩, trivial⟩⟩
    exact hfraction (htolerated.2.2.1 _ rfl _ _ rfl)

end Timestamp
