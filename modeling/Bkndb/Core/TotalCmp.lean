import Bkndb.Core.Leaves

/-!
# The order of sorting and grouping

`total_cmp` ranks values by kind and takes an undefined comparison within a kind for a tie. It is
reflexive, and exchanging its arguments reverses it, but it is not transitive on all values: the
sorts of `select_in`, of `aggregate_in` and of `ORDER BY` in the graph language are given an order
that is none.

## What goes wrong

Values of different kinds are ranked, and so are values of one kind other than numbers and lists.

Numbers are out of order when a `Float` stands between two `Int`s that round to it, a greater one
before it and a smaller one after it: both tie with the `Float`, and not with each other.

Lists are out of order when their leaves cross, which is for the same reason, or for an undecided
comparison of two leaves: `[2]` ties with `[null]`, which ties with `[1]`.

`totalCmp_preorder_iff` says that this is all.
-/

namespace PropValue

/-! ## The order of sorting -/

/-- No greater, as a sort takes it. -/
def NotGreater (a b : Option PropValue) : Prop := totalCmp a b ≠ .gt

/-- What sorting relies on, at three values. -/
structure Preorder3 (a b c : Option PropValue) : Prop where
  refl : totalCmp a a = .eq
  swap : totalCmp b a = (totalCmp a b).swap
  trans : NotGreater a b → NotGreater b c → NotGreater a c

/-- The two ways to be out of order: a `Float` between a greater `Int` and a smaller one that both
round to it, and three lists whose leaves cross. -/
def OutOfOrder : Option PropValue → Option PropValue → Option PropValue → Prop
  | some (int i), some (float f), some (int j) =>
    j.toInt < i.toInt ∧ F64.ofInt64 i = f ∧ F64.ofInt64 j = f
  | some (list x), some (list y), some (list z) =>
    Crossed (leavesOf x) (leavesOf y) (leavesOf z)
  | _, _, _ => False

theorem compareValues_self (a : PropValue) :
    compareValues a a = none ∨ compareValues a a = some .eq := by
  have h := compareValues_swap a a
  rcases hc : compareValues a a with _ | _ | _ | _ <;> rw [hc] at h <;> simp_all

/-- The comparison of two values of one rank. -/
def kindCmp : Option PropValue → Option PropValue → Ordering
  | some (float x), some (float y) => x.totalCmp y
  | some (int x), some (float y) => (F64.ofInt64 x).totalCmp y
  | some (float x), some (int y) => x.totalCmp (F64.ofInt64 y)
  | some x, some y => (compareValues x y).getD .eq
  | _, _ => .eq

theorem totalCmp_eq (a b : Option PropValue) :
    totalCmp a b = (cmp (kindRank a) (kindRank b)).then (kindCmp a b) := rfl

theorem totalCmp_self (a : Option PropValue) : totalCmp a a = .eq := by
  rw [totalCmp_eq, (cmp_eq_eq_iff _ _).mpr rfl, Ordering.eq_then]
  rcases a with _ | a
  · rfl
  · have h : (compareValues a a).getD .eq = .eq := by
      rcases compareValues_self a with h | h <;> rw [h] <;> rfl
    cases a <;> first | exact h | exact compare_eq_iff_eq.mpr rfl

theorem totalCmp_swap (a b : Option PropValue) : totalCmp b a = (totalCmp a b).swap := by
  rw [totalCmp_eq, totalCmp_eq, Ordering.swap_then, cmp_swap]
  congr 1
  rcases a with _ | a <;> rcases b with _ | b
  · rfl
  · cases b <;> rfl
  · cases a <;> rfl
  · have hswap : ((compareValues b a).getD .eq) = ((compareValues a b).getD .eq).swap := by
      rw [compareValues_swap a b]
      rcases compareValues a b with _ | _ | _ | _ <;> rfl
    cases a <;> cases b <;> first | exact hswap | exact (Int.compare_swap _ _).symm

/-! ## Within one rank -/

theorem kindRank_le_of_notGreater {a b : Option PropValue} (h : NotGreater a b) :
    kindRank a ≤ kindRank b := by
  by_contra hlt
  rw [NotGreater, totalCmp_eq, (cmp_eq_gt_iff _ _).mpr (not_le.mp hlt)] at h
  exact h rfl

theorem notGreater_of_kindRank_lt {a b : Option PropValue} (h : kindRank a < kindRank b) :
    NotGreater a b := by
  rw [NotGreater, totalCmp_eq, (cmp_eq_lt_iff _ _).mpr h, Ordering.lt_then]
  decide

theorem notGreater_iff_of_kindRank_eq {a b : Option PropValue} (h : kindRank a = kindRank b) :
    NotGreater a b ↔ kindCmp a b ≠ .gt := by
  rw [NotGreater, totalCmp_eq, (cmp_eq_eq_iff _ _).mpr h, Ordering.eq_then]

theorem cmp_ne_gt {α : Type*} [LinearOrder α] {a b : α} : cmp a b ≠ .gt ↔ a ≤ b := by
  rw [ne_eq, cmp_eq_gt_iff, not_lt]

theorem bytes_cmp_ne_gt {a b : Bytes} : Bytes.cmp a b ≠ .gt ↔ a ≤ b := by
  rw [ne_eq, Bytes.cmp_eq_gt, not_lt]

theorem totalCmp_ne_gt {f : Ieee.Format} {x y : IeeeFloat f} :
    x.totalCmp y ≠ .gt ↔ x.totalRank ≤ y.totalRank := by
  rw [IeeeFloat.totalCmp, ne_eq, compare_gt_iff_gt, not_lt]

theorem number_of_kindRank {a : PropValue} (h : kindRank (some a) = 2) :
    (∃ i, a = int i) ∨ ∃ f, a = float f := by
  cases a with
  | int i => exact .inl ⟨i, rfl⟩
  | float f => exact .inr ⟨f, rfl⟩
  | _ => cases h

section Numbers

variable {i j : Int64} {x y : F64}

@[simp] theorem kindCmp_int_int : kindCmp (some (int i)) (some (int j)) ≠ .gt ↔ i.toInt ≤ j.toInt :=
  cmp_ne_gt

@[simp] theorem kindCmp_int_float : kindCmp (some (int i)) (some (float y)) ≠ .gt ↔
    (F64.ofInt64 i).totalRank ≤ y.totalRank := totalCmp_ne_gt

@[simp] theorem kindCmp_float_int : kindCmp (some (float x)) (some (int j)) ≠ .gt ↔
    x.totalRank ≤ (F64.ofInt64 j).totalRank := totalCmp_ne_gt

@[simp] theorem kindCmp_float_float : kindCmp (some (float x)) (some (float y)) ≠ .gt ↔
    x.totalRank ≤ y.totalRank := totalCmp_ne_gt

end Numbers

/-- Numbers are in order unless a `Float` stands between two `Int`s that round to it. -/
theorem trans_numbers {a b c : PropValue} (ha : kindRank (some a) = 2) (hb : kindRank (some b) = 2)
    (hc : kindRank (some c) = 2) :
    ((kindCmp (some a) (some b) ≠ .gt → kindCmp (some b) (some c) ≠ .gt →
      kindCmp (some a) (some c) ≠ .gt) ↔ ¬ OutOfOrder (some a) (some b) (some c)) := by
  have hf : 2 ≤ Ieee.binary64.expBits := by decide
  have hmono : ∀ {i j : Int64}, i.toInt ≤ j.toInt →
      (F64.ofInt64 i).totalRank ≤ (F64.ofInt64 j).totalRank :=
    fun h ↦ IeeeFloat.totalRank_ofInt_mono hf h
  obtain ⟨i, rfl⟩ | ⟨x, rfl⟩ := number_of_kindRank ha <;>
    obtain ⟨j, rfl⟩ | ⟨y, rfl⟩ := number_of_kindRank hb <;>
      obtain ⟨k, rfl⟩ | ⟨z, rfl⟩ := number_of_kindRank hc <;>
        simp only [kindCmp_int_int, kindCmp_int_float, kindCmp_float_int, kindCmp_float_float,
          OutOfOrder, not_false_eq_true, iff_true]
  · exact le_trans
  · exact fun h h' ↦ (hmono h).trans h'
  · -- an `Int`, a `Float`, an `Int`
    constructor
    · rintro h ⟨hlt, hi, hk⟩
      exact absurd (h (by rw [hi]) (by rw [hk])) (not_le.mpr hlt)
    · intro hout hi hk
      by_contra hlt
      have hle := hmono (not_le.mp hlt).le
      refine hout ⟨not_le.mp hlt, ?_, ?_⟩
      · exact IeeeFloat.totalRank_injective (le_antisymm hi (hk.trans hle))
      · exact IeeeFloat.totalRank_injective (le_antisymm (hle.trans hi) hk)
  · exact le_trans
  · exact fun h h' ↦ h.trans (hmono h')
  · exact le_trans
  · exact le_trans
  · exact le_trans

theorem getD_ne_gt {o : Option Ordering} : o.getD .eq ≠ .gt ↔ o ≠ some .gt := by
  rcases o with _ | _ | _ | _ <;> simp

/-- Lists are in order unless their leaves cross. -/
theorem trans_lists (x y z : List PropValue) :
    ((kindCmp (some (list x)) (some (list y)) ≠ .gt →
      kindCmp (some (list y)) (some (list z)) ≠ .gt →
      kindCmp (some (list x)) (some (list z)) ≠ .gt) ↔
      ¬ OutOfOrder (some (list x)) (some (list y)) (some (list z))) := by
  have hcmp : ∀ v w : List PropValue, kindCmp (some (list v)) (some (list w)) ≠ .gt ↔
      compareLeaves (leavesOf v) (leavesOf w) ≠ some .gt := fun v w ↦ by
    rw [← compareLists_eq, ← getD_ne_gt]
    rfl
  rw [hcmp, hcmp, hcmp, OutOfOrder, crossed_iff]
  constructor
  · intro htrans hcross
    exact htrans hcross.first hcross.second hcross.outer
  · intro hcross hxy hyz hxz
    exact hcross ⟨hxy, hyz, hxz⟩

/-- Values of a kind other than numbers and lists are in order. -/
theorem trans_scalars {a b c : Option PropValue} (hab : kindRank a = kindRank b)
    (hbc : kindRank b = kindRank c) (hnumber : kindRank a ≠ 2) (hlist : kindRank a ≠ 7) :
    kindCmp a b ≠ .gt → kindCmp b c ≠ .gt → kindCmp a c ≠ .gt := by
  rcases a with _ | _ | _ | _ | _ | _ | _ | _ | _ | _ | _ <;>
    first | exact absurd rfl hnumber | exact absurd rfl hlist | skip
  all_goals
    rcases b with _ | _ | _ | _ | _ | _ | _ | _ | _ | _ | _ <;> cases hab
  all_goals
    rcases c with _ | _ | _ | _ | _ | _ | _ | _ | _ | _ | _ <;> cases hbc
  all_goals
    first
    | exact fun h h' ↦ cmp_ne_gt.mpr ((cmp_ne_gt.mp h).trans (cmp_ne_gt.mp h'))
    | exact fun h h' ↦ bytes_cmp_ne_gt.mpr ((bytes_cmp_ne_gt.mp h).trans (bytes_cmp_ne_gt.mp h'))
    | simp only [kindCmp, compareValues]
  all_goals intros
  all_goals first | decide | (split_ifs <;> decide)

theorem OutOfOrder.kindRank_eq {a b c : Option PropValue} (h : OutOfOrder a b c) :
    kindRank a = kindRank b ∧ kindRank b = kindRank c ∧ (kindRank a = 2 ∨ kindRank a = 7) := by
  unfold OutOfOrder at h
  split at h
  · exact ⟨rfl, rfl, .inl rfl⟩
  · exact ⟨rfl, rfl, .inr rfl⟩
  · exact h.elim

theorem exists_number {a : Option PropValue} (h : kindRank a = 2) :
    ∃ v, a = some v ∧ kindRank (some v) = 2 := by
  rcases a with _ | v
  · cases h
  · exact ⟨v, rfl, h⟩

theorem exists_list {a : Option PropValue} (h : kindRank a = 7) : ∃ l, a = some (list l) := by
  rcases a with _ | v
  · cases h
  · cases v with
    | list l => exact ⟨l, rfl⟩
    | _ => cases h

/-- **What the sort relies on holds exactly of the values that are in order.** -/
theorem totalCmp_preorder_iff (a b c : Option PropValue) :
    Preorder3 a b c ↔ ¬ OutOfOrder a b c := by
  have hiff : (NotGreater a b → NotGreater b c → NotGreater a c) ↔ ¬ OutOfOrder a b c := by
    by_cases hranks : kindRank a = kindRank b ∧ kindRank b = kindRank c
    · obtain ⟨hab, hbc⟩ := hranks
      rw [notGreater_iff_of_kindRank_eq hab, notGreater_iff_of_kindRank_eq hbc,
        notGreater_iff_of_kindRank_eq (hab.trans hbc)]
      by_cases hnumber : kindRank a = 2
      · obtain ⟨u, rfl, hu⟩ := exists_number hnumber
        obtain ⟨v, rfl, hv⟩ := exists_number (hab.symm.trans hnumber)
        obtain ⟨w, rfl, hw⟩ := exists_number (hbc.symm.trans hv)
        exact trans_numbers hu hv hw
      · by_cases hlist : kindRank a = 7
        · obtain ⟨x, rfl⟩ := exists_list hlist
          obtain ⟨y, rfl⟩ := exists_list (hab.symm.trans hlist)
          obtain ⟨z, rfl⟩ := exists_list hbc.symm
          exact trans_lists x y z
        · exact iff_of_true (trans_scalars hab hbc hnumber hlist)
            fun hout ↦ hout.kindRank_eq.2.2.elim hnumber hlist
    · refine iff_of_true (fun hab hbc ↦ notGreater_of_kindRank_lt ?_)
        fun hout ↦ hranks ⟨hout.kindRank_eq.1, hout.kindRank_eq.2.1⟩
      have hab := kindRank_le_of_notGreater hab
      have hbc := kindRank_le_of_notGreater hbc
      omega
  exact ⟨fun hpre ↦ hiff.mp hpre.trans,
    fun hout ↦ ⟨totalCmp_self a, totalCmp_swap a b, hiff.mpr hout⟩⟩

/-- `[2]` ties with `[null]`, which ties with `[1]`, and is above it. -/
theorem not_totalCmp_preorder : ¬ ∀ a b c : Option PropValue, Preorder3 a b c := by
  intro h
  have htrans := (h (some (list [int 2])) (some (list [null])) (some (list [int 1]))).trans
  exact htrans (by unfold NotGreater; decide) (by unfold NotGreater; decide) (by decide)

end PropValue
