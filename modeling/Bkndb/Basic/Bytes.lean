import Mathlib.Data.List.Lex
import Mathlib.Data.Nat.Log
import Mathlib.Tactic.Linarith
import Mathlib.Tactic.Positivity
import Mathlib.Tactic.Ring

/-!
# Byte strings in lexicographic order

Byte strings compared byte by byte, a strict prefix sorting first, together with the two encodings
every ordered key space is built from: fixed-width big-endian integers, whose byte order is the
numeric order, and the byte-string successor that turns "starts with `p`" into a half-open range.

## The order

The order is the one Mathlib gives to lists of a linear order. What is added is what key spaces
need of it: appending the same front to two strings keeps their order, a comparison that is decided
before the shorter string ends is not changed by what follows, and strings of one width compare
field by field.

## Prefix ranges

`upperBound` is computed as the sources compute it, with a loop that pops bytes `0xFF` off the end.
The proofs use the recursion on the front of the string instead (`upperBound_cons`), since that is
how the lexicographic order is defined. Where every byte is `0xFF` there is no upper bound and the
range is open; `BelowUpper` covers both cases, so that callers need not distinguish them.

## Fields

A field is told from what follows it either by its width (`append_inj_of_length`), by a terminating
zero byte that it does not contain (`terminated_inj`), or by a length in front
(`lenPrefixed_append_inj`). Every composite key of the database uses one of the three.
-/

/-- Bytes are ordered by their numeric value. -/
instance UInt8.instLinearOrder : LinearOrder UInt8 where
  le_refl := UInt8.le_refl
  le_trans _ _ _ := UInt8.le_trans
  le_antisymm _ _ := UInt8.le_antisymm
  le_total := UInt8.le_total
  lt_iff_le_not_ge a b := by
    rw [UInt8.le_iff_toNat_le, UInt8.le_iff_toNat_le, UInt8.lt_iff_toNat_lt]
    omega
  toDecidableLE := inferInstance
  toDecidableLT := inferInstance
  toDecidableEq := inferInstance

/-- A byte string. Its order is the lexicographic one inherited from lists. -/
abbrev Bytes := List UInt8

instance Bytes.instLawfulBEq : LawfulBEq Bytes := inferInstance

namespace Bytes

/-- Three-way lexicographic comparison. -/
def cmp (a b : Bytes) : Ordering := if a < b then .lt else if b < a then .gt else .eq

theorem cmp_eq_lt {a b : Bytes} : cmp a b = .lt ↔ a < b := by
  rw [cmp]
  split_ifs <;> simp_all

theorem cmp_eq_gt {a b : Bytes} : cmp a b = .gt ↔ b < a := by
  rw [cmp]
  split_ifs with h h'
  · simpa using le_of_lt h
  · simpa using h'
  · simpa using h'

theorem cmp_eq_eq {a b : Bytes} : cmp a b = .eq ↔ a = b := by
  rw [cmp]
  split_ifs with h h'
  · simpa using ne_of_lt h
  · simpa using ne_of_gt h'
  · simpa using le_antisymm (not_lt.mp h') (not_lt.mp h)

@[simp] theorem cmp_self (a : Bytes) : cmp a a = .eq := cmp_eq_eq.mpr rfl

/-! ## Prefixes and the order -/

theorem nil_le (k : Bytes) : [] ≤ k := by
  cases k with
  | nil => exact le_refl _
  | cons b k => exact le_of_lt List.Lex.nil

theorem cons_lt_cons {a b : UInt8} {k l : Bytes} :
    (a :: k) < (b :: l) ↔ a < b ∨ a = b ∧ k < l := List.cons_lt_cons_iff

theorem cons_le_cons {a b : UInt8} {k l : Bytes} :
    (a :: k) ≤ (b :: l) ↔ a < b ∨ a = b ∧ k ≤ l := by
  rw [le_iff_lt_or_eq, cons_lt_cons, le_iff_lt_or_eq, List.cons.injEq]
  tauto

theorem not_lt_nil (k : Bytes) : ¬k < [] := not_lt.mpr (nil_le k)

theorem append_lt_append_iff (p : Bytes) {k l : Bytes} : p ++ k < p ++ l ↔ k < l := by
  induction p with
  | nil => rfl
  | cons b p ih =>
    rw [List.cons_append, List.cons_append, cons_lt_cons, ih]
    simp

theorem append_le_append_iff (p : Bytes) {k l : Bytes} : p ++ k ≤ p ++ l ↔ k ≤ l := by
  rw [← not_lt, ← not_lt, append_lt_append_iff]

theorem le_of_isPrefix {p k : Bytes} (h : p <+: k) : p ≤ k := by
  obtain ⟨t, rfl⟩ := h
  conv_lhs => rw [← List.append_nil p]
  exact (append_le_append_iff p).mpr (nil_le t)

/-- A comparison decided before the shorter string ends is not changed by what follows it. -/
theorem append_lt_of_lt_of_not_isPrefix {a b : Bytes} (h : a < b) (hp : ¬a <+: b) (rest : Bytes) :
    a ++ rest < b := by
  induction a generalizing b with
  | nil => exact absurd (List.nil_prefix) hp
  | cons x a ih =>
    cases b with
    | nil => exact absurd h (not_lt_nil _)
    | cons y b =>
      rw [List.cons_append, cons_lt_cons]
      rcases cons_lt_cons.mp h with hxy | ⟨rfl, hab⟩
      · exact Or.inl hxy
      · exact Or.inr ⟨rfl, ih hab fun hpre ↦ hp ((List.prefix_cons_inj x).mpr hpre)⟩

/-- Strings of one length decide the comparison of whatever is appended to them. -/
theorem append_lt_append_of_lt {a b : Bytes} (hlen : a.length = b.length) (h : a < b)
    (k l : Bytes) : a ++ k < b ++ l := by
  induction a generalizing b with
  | nil =>
    cases b with
    | nil => exact absurd h (lt_irrefl _)
    | cons y b => simp at hlen
  | cons x a ih =>
    cases b with
    | nil => simp at hlen
    | cons y b =>
      rw [List.cons_append, List.cons_append, cons_lt_cons]
      rcases cons_lt_cons.mp h with hxy | ⟨hxy, hab⟩
      · exact Or.inl hxy
      · exact Or.inr ⟨hxy, ih (by simpa using hlen) hab⟩

/-! ## The byte-string successor -/

/-- The popping loop on the reversed string: drop trailing `0xFF` bytes, increment the byte that
stops the loop. -/
def succLoop : Bytes → Option Bytes
  | [] => none
  | last :: out => if last ≠ 0xFF then some (((last + 1) :: out).reverse) else succLoop out

/-- The exclusive upper bound of the strings starting with `p`: increment the last byte below
`0xFF` and truncate after it. `none` when every byte of `p` is `0xFF`. -/
def upperBound (p : Bytes) : Option Bytes := succLoop p.reverse

theorem succLoop_append (l : Bytes) (b : UInt8) :
    succLoop (l ++ [b])
      = match succLoop l with
        | some u => some (b :: u)
        | none => if b ≠ 0xFF then some [b + 1] else none := by
  induction l with
  | nil => simp [succLoop]
  | cons c l ih =>
    rw [List.cons_append, succLoop, succLoop]
    split
    · simp
    · exact ih

/-- The recursion on the front of the string, which is the form the order proofs use. -/
theorem upperBound_cons (b : UInt8) (p : Bytes) :
    upperBound (b :: p)
      = match upperBound p with
        | some u => some (b :: u)
        | none => if b ≠ 0xFF then some [b + 1] else none := by
  rw [upperBound, List.reverse_cons, succLoop_append]
  rfl

@[simp] theorem upperBound_nil : upperBound [] = none := rfl

theorem lt_succ_iff {b c : UInt8} (hb : b ≠ 0xFF) : c < b + 1 ↔ c ≤ b := by
  have hb' : b.toNat ≠ 255 := fun h ↦ hb (UInt8.toNat_inj.mp (by simpa using h))
  have h1 : (b + 1).toNat = b.toNat + 1 := by
    rw [UInt8.toNat_add]
    have := UInt8.toNat_lt b
    simp
    omega
  rw [UInt8.lt_iff_toNat_lt, UInt8.le_iff_toNat_le, h1]
  omega

/-- `k` stays below the successor of `p`, which is vacuous when there is none. -/
def BelowUpper (p k : Bytes) : Prop := ∀ u, upperBound p = some u → k < u

private theorem eq_max_of_ge {b c : UInt8} (hb : b = 0xFF) (h : b ≤ c) : c = b := by
  apply UInt8.toNat_inj.mp
  rw [UInt8.le_iff_toNat_le] at h
  have := UInt8.toNat_lt c
  subst hb
  simp at h ⊢
  omega

/-- **The prefix range.** The strings starting with `p` are those from `p` up to its successor. -/
theorem isPrefix_iff {p k : Bytes} : p <+: k ↔ p ≤ k ∧ BelowUpper p k := by
  induction p generalizing k with
  | nil => simp [BelowUpper, nil_le]
  | cons b p ih =>
    cases k with
    | nil =>
      simp only [List.prefix_nil, reduceCtorEq, false_iff, not_and]
      intro h
      exact absurd h (not_le.mpr List.Lex.nil)
    | cons c k =>
      rw [List.cons_prefix_cons, ih, cons_le_cons]
      have key : BelowUpper (b :: p) (c :: k) ↔
          c < b ∨ (c = b ∧ BelowUpper p k) ∨ (b = 0xFF ∧ upperBound p = none) ∨
            (c = b ∧ upperBound p = none) := by
        unfold BelowUpper
        rw [upperBound_cons]
        cases hu : upperBound p with
        | some u => simp [cons_lt_cons]
        | none =>
          by_cases hb : b = 0xFF
          · simp [hb]
          · have hlt : ∀ u, some [b + 1] = some u → ((c :: k) < u ↔ c ≤ b) := by
              intro u hu
              obtain rfl := Option.some.inj hu
              rw [cons_lt_cons, ← lt_succ_iff hb]
              simp
            simp only [ne_eq, hb, not_false_eq_true, if_true]
            constructor
            · intro h
              rcases lt_or_eq_of_le ((hlt _ rfl).mp (h _ rfl)) with h' | h'
              · exact Or.inl h'
              · exact Or.inr (Or.inr (Or.inr ⟨h', trivial⟩))
            · rintro (h | ⟨h, -⟩ | ⟨h, -⟩ | ⟨h, -⟩) u hu
              · exact (hlt u hu).mpr (le_of_lt h)
              · exact (hlt u hu).mpr (le_of_eq h)
              · exact absurd h (by simp)
              · exact (hlt u hu).mpr (le_of_eq h)
      rw [key]
      constructor
      · rintro ⟨rfl, h1, h2⟩
        exact ⟨Or.inr ⟨rfl, h1⟩, Or.inr (Or.inl ⟨rfl, h2⟩)⟩
      · rintro ⟨hbc | ⟨rfl, hpk⟩, h⟩
        · rcases h with h | ⟨rfl, -⟩ | ⟨rfl, -⟩ | ⟨rfl, -⟩
          · exact absurd (lt_trans hbc h) (lt_irrefl _)
          · exact absurd hbc (lt_irrefl _)
          · exact absurd (eq_max_of_ge rfl (le_of_lt hbc)) (ne_of_gt hbc)
          · exact absurd hbc (lt_irrefl _)
        · refine ⟨rfl, hpk, ?_⟩
          rcases h with h | ⟨-, h⟩ | ⟨-, h⟩ | ⟨-, h⟩
          · exact absurd h (lt_irrefl _)
          · exact h
          · intro u hu
            rw [h] at hu
            exact absurd hu (by simp)
          · intro u hu
            rw [h] at hu
            exact absurd hu (by simp)

theorem lt_upperBound {p u : Bytes} (h : upperBound p = some u) : p < u :=
  (isPrefix_iff.mp (List.prefix_refl p)).2 u h

/-! ## Big-endian integers

`be` cuts a number to its width, as a cast does, so encodings are faithful only below the bound of
the width; the statements about order and injectivity carry that bound. -/

/-- The low `w` bytes of `n`, most significant first. -/
def be : ℕ → ℕ → Bytes
  | 0, _ => []
  | w + 1, n => UInt8.ofNat (n / 256 ^ w % 256) :: be w n

/-- Reading bytes back as one number, most significant first. -/
def ofBe (k : Bytes) : ℕ := k.foldl (fun acc b ↦ acc * 256 + b.toNat) 0

@[simp] theorem length_be (w n : ℕ) : (be w n).length = w := by
  induction w with
  | zero => rfl
  | succ w ih => rw [be, List.length_cons, ih]

theorem be_mod (w n : ℕ) : be w (n % 256 ^ w) = be w n := by
  suffices h : ∀ v, w ≤ v → be w (n % 256 ^ v) = be w n from h w (le_refl w)
  intro v hv
  induction w with
  | zero => rfl
  | succ w ih =>
    rw [be, be, ih (by omega)]
    congr 2
    obtain ⟨d, rfl⟩ : ∃ d, v = w + (1 + d) := ⟨v - w - 1, by omega⟩
    rw [pow_add, Nat.mod_mul_right_div_self, pow_add, pow_one, Nat.mod_mul_right_mod]

private theorem foldl_be (w n : ℕ) : ∀ acc : ℕ,
    (be w n).foldl (fun acc b ↦ acc * 256 + b.toNat) acc = acc * 256 ^ w + n % 256 ^ w := by
  induction w with
  | zero => intro acc; simp [be, Nat.mod_one]
  | succ w ih =>
    intro acc
    rw [be, List.foldl_cons, ih]
    have hb : (UInt8.ofNat (n / 256 ^ w % 256)).toNat = n / 256 ^ w % 256 := by
      simp
    have hsplit : n % 256 ^ (w + 1) = 256 ^ w * (n / 256 ^ w % 256) + n % 256 ^ w := by
      rw [pow_succ, Nat.mod_mul]
      ring
    rw [hb, hsplit, pow_succ]
    ring

theorem ofBe_be (w n : ℕ) : ofBe (be w n) = n % 256 ^ w := by
  rw [ofBe, foldl_be, zero_mul, zero_add]

theorem ofBe_be_of_lt {w n : ℕ} (h : n < 256 ^ w) : ofBe (be w n) = n := by
  rw [ofBe_be, Nat.mod_eq_of_lt h]

private theorem foldl_ofBe (b : Bytes) : ∀ acc : ℕ,
    b.foldl (fun acc b ↦ acc * 256 + b.toNat) acc = acc * 256 ^ b.length + ofBe b := by
  induction b with
  | nil => simp [ofBe]
  | cons x b ih =>
    intro acc
    rw [ofBe, List.foldl_cons, List.foldl_cons, ih, ih (0 * 256 + x.toNat), List.length_cons,
      pow_succ]
    ring

theorem ofBe_cons (x : UInt8) (b : Bytes) :
    ofBe (x :: b) = x.toNat * 256 ^ b.length + ofBe b := by
  rw [ofBe, List.foldl_cons, foldl_ofBe, zero_mul, zero_add]

theorem ofBe_lt (b : Bytes) : ofBe b < 256 ^ b.length := by
  induction b with
  | nil => simp [ofBe]
  | cons x b ih =>
    have hx : x.toNat + 1 ≤ 256 := x.toNat_lt
    have hmul : (x.toNat + 1) * 256 ^ b.length ≤ 256 * 256 ^ b.length :=
      Nat.mul_le_mul_right _ hx
    rw [ofBe_cons, List.length_cons, pow_succ']
    rw [add_mul, one_mul] at hmul
    omega

theorem be_ofBe (b : Bytes) : be b.length (ofBe b) = b := by
  induction b with
  | nil => rfl
  | cons x b ih =>
    have hpos : 0 < 256 ^ b.length := by positivity
    have hx : x.toNat < 256 := x.toNat_lt
    have hdiv : (x.toNat * 256 ^ b.length + ofBe b) / 256 ^ b.length = x.toNat := by
      rw [add_comm, Nat.add_mul_div_right _ _ hpos, Nat.div_eq_of_lt (ofBe_lt b), zero_add]
    have htail : be b.length (x.toNat * 256 ^ b.length + ofBe b) = b := by
      rw [← be_mod, add_comm, Nat.add_mul_mod_self_right, be_mod, ih]
    rw [List.length_cons, be, ofBe_cons, hdiv, htail, Nat.mod_eq_of_lt hx, UInt8.ofNat_toNat]

theorem be_injective {w m n : ℕ} (hm : m < 256 ^ w) (hn : n < 256 ^ w) (h : be w m = be w n) :
    m = n := by
  rw [← ofBe_be_of_lt hm, ← ofBe_be_of_lt hn, h]

/-- Byte order of equally wide encodings is numeric order. -/
theorem be_lt_be_iff {w m n : ℕ} (hm : m < 256 ^ w) (hn : n < 256 ^ w) :
    be w m < be w n ↔ m < n := by
  induction w generalizing m n with
  | zero =>
    simp only [pow_zero, Nat.lt_one_iff] at hm hn
    subst hm hn
    simp
  | succ w ih =>
    have hpos : 0 < 256 ^ w := by positivity
    have hdm : m / 256 ^ w < 256 := by
      rw [Nat.div_lt_iff_lt_mul hpos, ← pow_succ']
      exact hm
    have hdn : n / 256 ^ w < 256 := by
      rw [Nat.div_lt_iff_lt_mul hpos, ← pow_succ']
      exact hn
    have hcast : ∀ a : ℕ, a < 256 → (UInt8.ofNat (a % 256)).toNat = a := by
      intro a ha
      simp
      omega
    have hlt : UInt8.ofNat (m / 256 ^ w % 256) < UInt8.ofNat (n / 256 ^ w % 256) ↔
        m / 256 ^ w < n / 256 ^ w := by
      rw [UInt8.lt_iff_toNat_lt, hcast _ hdm, hcast _ hdn]
    have heq : UInt8.ofNat (m / 256 ^ w % 256) = UInt8.ofNat (n / 256 ^ w % 256) ↔
        m / 256 ^ w = n / 256 ^ w := by
      rw [← UInt8.toNat_inj, hcast _ hdm, hcast _ hdn]
    rw [be, be, cons_lt_cons, hlt, heq, ← be_mod w m, ← be_mod w n,
      ih (Nat.mod_lt m hpos) (Nat.mod_lt n hpos)]
    have em := Nat.div_add_mod m (256 ^ w)
    have en := Nat.div_add_mod n (256 ^ w)
    have rm := Nat.mod_lt m hpos
    have rn := Nat.mod_lt n hpos
    constructor
    · rintro (h | ⟨h1, h2⟩)
      · have : 256 ^ w * (m / 256 ^ w + 1) ≤ 256 ^ w * (n / 256 ^ w) := Nat.mul_le_mul_left _ h
        rw [mul_add, mul_one] at this
        omega
      · rw [h1] at em
        omega
    · intro h
      rcases lt_trichotomy (m / 256 ^ w) (n / 256 ^ w) with h' | h' | h'
      · exact Or.inl h'
      · rw [h'] at em
        exact Or.inr ⟨h', by omega⟩
      · have : 256 ^ w * (n / 256 ^ w + 1) ≤ 256 ^ w * (m / 256 ^ w) := Nat.mul_le_mul_left _ h'
        rw [mul_add, mul_one] at this
        omega

theorem be_le_be_iff {w m n : ℕ} (hm : m < 256 ^ w) (hn : n < 256 ^ w) :
    be w m ≤ be w n ↔ m ≤ n := by
  rw [← not_lt, ← not_lt, be_lt_be_iff hn hm]

theorem append_inj_of_length {a b k l : Bytes} (hlen : a.length = b.length)
    (h : a ++ k = b ++ l) : a = b ∧ k = l :=
  List.append_inj h hlen

/-- A string that ends at its first zero byte is told from what follows it. -/
theorem terminated_inj {s t k l : Bytes} (hs : 0 ∉ s) (ht : 0 ∉ t)
    (h : s ++ 0 :: k = t ++ 0 :: l) : s = t ∧ k = l := by
  induction s generalizing t with
  | nil =>
    cases t with
    | nil => simpa using h
    | cons b t =>
      obtain ⟨rfl, -⟩ : 0 = b ∧ _ := by simpa using h
      exact absurd List.mem_cons_self ht
  | cons a s ih =>
    cases t with
    | nil =>
      obtain ⟨rfl, -⟩ : a = 0 ∧ _ := by simpa using h
      exact absurd List.mem_cons_self hs
    | cons b t =>
      rw [List.cons_append, List.cons_append, List.cons.injEq] at h
      obtain ⟨rfl, hk⟩ := ih (fun h0 ↦ hs (List.mem_cons_of_mem _ h0))
        (fun h0 ↦ ht (List.mem_cons_of_mem _ h0)) h.2
      exact ⟨by rw [h.1], hk⟩

/-- A string without NUL bytes starts a terminated one just when it starts what comes before the
NUL. -/
theorem isPrefix_terminated {s t k : Bytes} (hs : 0 ∉ s) : s <+: t ++ 0 :: k ↔ s <+: t := by
  induction s generalizing t with
  | nil => simp
  | cons a s ih =>
    obtain ⟨ha, hs⟩ := not_or.mp (mt List.mem_cons.mpr hs)
    cases t with
    | nil => simp [Ne.symm ha]
    | cons b t => rw [List.cons_append, List.cons_prefix_cons, List.cons_prefix_cons, ih hs]

/-- A terminated string starts with no other terminated one. -/
theorem terminated_isPrefix {s t k : Bytes} (hs : 0 ∉ s) (ht : 0 ∉ t) :
    s ++ [0] <+: t ++ 0 :: k ↔ t = s := by
  constructor
  · rintro ⟨rest, hrest⟩
    rw [List.append_assoc, List.singleton_append] at hrest
    exact (terminated_inj hs ht hrest).1.symm
  · rintro rfl
    exact ⟨k, by simp⟩

/-! ## Length-prefixed fields

A length in front tells a field from what follows whatever bytes it holds. It also tells the ranges
of two fields apart: a key that starts with one field starts with no other. -/

/-- A field behind its length, written in two bytes. -/
def lenPrefixed (s : Bytes) : Bytes := be 2 s.length ++ s

theorem lenPrefixed_append_inj {s t k l : Bytes} (hs : s.length < 256 ^ 2) (ht : t.length < 256 ^ 2)
    (h : lenPrefixed s ++ k = lenPrefixed t ++ l) : s = t ∧ k = l := by
  rw [lenPrefixed, lenPrefixed, List.append_assoc, List.append_assoc] at h
  obtain ⟨hlen, hrest⟩ := append_inj_of_length (by simp) h
  exact append_inj_of_length (be_injective hs ht hlen) hrest

/-- A length-prefixed field is a prefix of no string that starts with another one. -/
theorem lenPrefixed_isPrefix {s t l : Bytes} (hs : s.length < 256 ^ 2) (ht : t.length < 256 ^ 2) :
    lenPrefixed s <+: lenPrefixed t ++ l ↔ s = t := by
  constructor
  · rintro ⟨k, h⟩
    exact (lenPrefixed_append_inj hs ht h).1
  · rintro rfl
    exact List.prefix_append _ _

/-- A string of one length lies in the range of strings starting with `p` that are that much
longer, when padded with the greatest byte. -/
theorem isPrefix_of_le_append {p k rest : Bytes} (hle : p ≤ k) (hk : k ≤ p ++ rest) : p <+: k := by
  by_contra hp
  have hlt : p < k := lt_of_le_of_ne hle fun h ↦ hp (h ▸ List.prefix_refl p)
  exact absurd (append_lt_of_lt_of_not_isPrefix hlt hp rest) (not_lt.mpr hk)

theorem le_replicate_max (k : Bytes) : k ≤ List.replicate k.length 0xFF := by
  induction k with
  | nil => exact le_refl _
  | cons b k ih =>
    rw [List.length_cons, List.replicate_succ, cons_le_cons]
    have hb : b ≤ 0xFF := by
      rw [UInt8.le_iff_toNat_le]
      have := b.toNat_lt
      simp
      omega
    rcases lt_or_eq_of_le hb with h | h
    · exact Or.inl h
    · exact Or.inr ⟨h, ih⟩

end Bytes
