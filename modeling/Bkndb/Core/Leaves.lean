import Bkndb.Basic.IeeeOrder
import Bkndb.Core.Value

/-!
# Lists, leaf by leaf

`compare_values` goes through two lists element by element, and into nested lists again. Read from
left to right, with a bracket where a list begins and one where it ends, a list is a row of scalars
and brackets, and the comparison is the lexicographic one: the first leaf that does not tie decides,
and two leaves that cannot be compared leave the lists undecided (`compareLists_eq`).

## Three lists

Sorting takes an undecided comparison for a tie. Whether three lists are then in order is decided at
the first place where their leaves do not all tie with one another. There are two ways to be out of
order, and `Crossed` lists them by what stands at that place:

* the middle leaf can be compared with neither of the outer ones, which are the wrong way round
  there or, when they tie, further on;
* the leaves are a `Float` and two different `Int`s that round to it, in one of three arrangements.

In the second case the pairs that tie go on, each for itself, and what comes after the place takes
part. `crossed_iff` says that nothing else goes wrong.
-/

namespace PropValue

/-! ## Values by their parts -/

/-- Induction on a value: a list or a map from what it holds. -/
theorem inductOn {P : PropValue → Prop} (list : ∀ l, (∀ v ∈ l, P v) → P (.list l))
    (map : ∀ m : List (String × PropValue), (∀ e ∈ m, P e.2) → P (.map m))
    (scalar : ∀ v, (∀ l, v ≠ .list l) → (∀ m, v ≠ .map m) → P v) (v : PropValue) : P v :=
  match v with
  | .list l => list l fun v hv ↦ inductOn list map scalar v
  | .map m => map m fun e he ↦ inductOn list map scalar e.2
  | .null => scalar _ (by simp) (by simp)
  | .bool _ => scalar _ (by simp) (by simp)
  | .int _ => scalar _ (by simp) (by simp)
  | .float _ => scalar _ (by simp) (by simp)
  | .str _ => scalar _ (by simp) (by simp)
  | .bytes _ => scalar _ (by simp) (by simp)
  | .timestamp _ => scalar _ (by simp) (by simp)
  | .uuid _ => scalar _ (by simp) (by simp)
termination_by sizeOf v
decreasing_by
  · have := List.sizeOf_lt_of_mem hv
    simp only [PropValue.list.sizeOf_spec]
    omega
  · have := List.sizeOf_lt_of_mem he
    have hsnd : sizeOf e.2 < sizeOf e := by
      cases e
      simp only [Prod.mk.sizeOf_spec]
      omega
    simp only [PropValue.map.sizeOf_spec]
    omega

/-! ## Equality -/

theorem eqv_comm (a b : PropValue) : a.eqv b = b.eqv a := by
  induction a using inductOn generalizing b with
  | list x ih =>
    cases b
    case list y =>
      rw [eqv, eqv]
      induction x generalizing y with
      | nil => cases y <;> rfl
      | cons v x ihx =>
        cases y with
        | nil => rfl
        | cons w y =>
          rw [eqvList, eqvList, ih v List.mem_cons_self,
            ihx (fun u hu ↦ ih u (List.mem_cons_of_mem v hu))]
    all_goals rfl
  | map m ih =>
    cases b
    case map n =>
      rw [eqv, eqv]
      induction m generalizing n with
      | nil => cases n <;> rfl
      | cons e m ihm =>
        cases n with
        | nil => rfl
        | cons d n =>
          rw [eqvEntries, eqvEntries, ih e List.mem_cons_self,
            ihm (fun u hu ↦ ih u (List.mem_cons_of_mem e hu)), Bool.beq_comm]
    all_goals rfl
  | scalar v hlist hmap =>
    cases v <;> cases b <;> first
      | rfl
      | exact absurd rfl (hlist _)
      | exact absurd rfl (hmap _)
      | exact Bool.beq_comm
      | skip
    case float x y =>
      rw [eqv, eqv, IeeeFloat.eqv, IeeeFloat.eqv, IeeeFloat.partialCmp_swap]
      rcases y.partialCmp x with _ | _ | _ | _ <;> rfl

/-- Equal values are equal to the same values. -/
theorem eqv_congr {a b : PropValue} (h : a.eqv b = true) (c : PropValue) : a.eqv c = b.eqv c := by
  induction a using inductOn generalizing b c with
  | list x ih =>
    cases b
    case list y =>
      cases c
      case list z =>
        rw [eqv] at h
        rw [eqv, eqv]
        induction x generalizing y z with
        | nil =>
          cases y with
          | nil => rfl
          | cons w y => cases h
        | cons v x ihx =>
          cases y with
          | nil => cases h
          | cons w y =>
            rw [eqvList, Bool.and_eq_true] at h
            cases z with
            | nil => rfl
            | cons u z =>
              rw [eqvList, eqvList, ih v List.mem_cons_self h.1,
                ihx (fun u hu ↦ ih u (List.mem_cons_of_mem v hu)) y h.2 z]
      all_goals rfl
    all_goals cases h
  | map m ih =>
    cases b
    case map n =>
      cases c
      case map o =>
        rw [eqv] at h
        rw [eqv, eqv]
        induction m generalizing n o with
        | nil =>
          cases n with
          | nil => rfl
          | cons d n => cases h
        | cons e m ihm =>
          cases n with
          | nil => cases h
          | cons d n =>
            rw [eqvEntries, Bool.and_eq_true, Bool.and_eq_true, beq_iff_eq] at h
            cases o with
            | nil => rfl
            | cons g o =>
              rw [eqvEntries, eqvEntries, h.1.1, ih e List.mem_cons_self h.1.2,
                ihm (fun u hu ↦ ih u (List.mem_cons_of_mem e hu)) n h.2 o]
      all_goals rfl
    all_goals cases h
  | scalar v hlist hmap =>
    cases v <;> cases b <;> first
      | rfl
      | cases h
      | exact absurd rfl (hlist _)
      | exact absurd rfl (hmap _)
      | skip
    case float x y =>
      cases c
      case float z =>
        rw [eqv, IeeeFloat.eqv, beq_iff_eq] at h
        rw [eqv, eqv, IeeeFloat.eqv, IeeeFloat.eqv, IeeeFloat.partialCmp_congr h]
      all_goals rfl
    all_goals
      rw [eqv, beq_iff_eq] at h
      rw [h]

/-! ## The partial comparison reverses -/

theorem Bytes.cmp_swap (a b : Bytes) : Bytes.cmp b a = (Bytes.cmp a b).swap := by
  cases h : Bytes.cmp a b
  · exact Bytes.cmp_eq_gt.mpr (Bytes.cmp_eq_lt.mp h)
  · rw [Bytes.cmp_eq_eq.mp h, Bytes.cmp_self]
    rfl
  · exact Bytes.cmp_eq_lt.mpr (Bytes.cmp_eq_gt.mp h)

/-- How the elements of two lists compare at one place. -/
def compareAt : PropValue → PropValue → Option Ordering
  | null, null => some .eq
  | a, b => compareValues a b

theorem compareLists_cons (a b : PropValue) (x y : List PropValue) :
    compareLists (a :: x) (b :: y) =
      match compareAt a b with
      | none => none
      | some .eq => compareLists x y
      | some o => some o := by
  cases a <;> cases b <;> rfl

theorem compareValues_swap (a b : PropValue) :
    b.compareValues a = (a.compareValues b).map .swap := by
  induction a using inductOn generalizing b with
  | list x ih =>
    cases b
    case list y =>
      rw [compareValues, compareValues]
      induction x generalizing y with
      | nil => cases y <;> rfl
      | cons v x ihx =>
        cases y with
        | nil => rfl
        | cons w y =>
          have hat : compareAt w v = (compareAt v w).map .swap := by
            have hv := ih v List.mem_cons_self w
            cases v <;> cases w <;> first | rfl | exact hv
          rw [compareLists_cons, compareLists_cons, hat]
          rcases compareAt v w with _ | _ | _ | _
          · rfl
          · rfl
          · exact ihx (fun u hu ↦ ih u (List.mem_cons_of_mem v hu)) y
          · rfl
    all_goals rfl
  | map m ih =>
    cases b
    case map n =>
      have hcomm : eqvEntries n m = eqvEntries m n := eqv_comm (.map n) (.map m)
      rw [compareValues, compareValues, hcomm]
      split <;> rfl
    all_goals rfl
  | scalar v hlist hmap =>
    cases v <;> cases b <;> first
      | rfl
      | exact absurd rfl (hlist _)
      | exact absurd rfl (hmap _)
      | exact IeeeFloat.partialCmp_swap _ _
      | exact congrArg some (Bytes.cmp_swap _ _)
      | exact congrArg some (cmp_swap _ _).symm

/-! ## Numbers that round to the same

The only values that tie with two values that do not tie with each other are numbers: a `Float` and
the `Int`s that are converted to it when they are compared with it.
-/

/-- Two integers that both round to a number are the same. -/
def Distinct (i j : Int64) (f : F64) : Prop :=
  (F64.ofInt64 i).partialCmp f = some .eq → (F64.ofInt64 j).partialCmp f = some .eq → i = j

/-- Of three values, there are not a `Float` and two different `Int`s that round to it. -/
def NoCollision : PropValue → PropValue → PropValue → Prop
  | int i, int j, float f | int i, float f, int j | float f, int i, int j => Distinct i j f
  | _, _, _ => True

theorem NoCollision.rotate {a b c : PropValue} (h : NoCollision a b c) : NoCollision b c a := by
  cases a <;> cases b <;> cases c <;>
    first | trivial | exact h | exact fun hi hj ↦ (h hj hi).symm

/-- Integers that round apart compare as what they round to. -/
theorem partialCmp_ofInt64 {i j : Int64}
    (h : (F64.ofInt64 i).partialCmp (F64.ofInt64 j) = some .eq → i = j) :
    (F64.ofInt64 i).partialCmp (F64.ofInt64 j) = some (cmp i.toInt j.toInt) := by
  have hf : 2 ≤ Ieee.binary64.expBits := by decide
  have hi := IeeeFloat.isNaN_ofInt hf i.toInt
  have hj := IeeeFloat.isNaN_ofInt hf j.toInt
  rcases lt_trichotomy i.toInt j.toInt with hlt | heq | hgt
  · rw [(cmp_eq_lt_iff _ _).mpr hlt, IeeeFloat.partialCmp_eq_some]
    have hle := IeeeFloat.rank_ofInt_mono hf hlt.le
    refine ⟨hi, hj, compare_lt_iff_lt.mpr (lt_of_le_of_ne hle ?_)⟩
    intro hrank
    have heq := h (IeeeFloat.partialCmp_eq_some.mpr ⟨hi, hj, compare_eq_iff_eq.mpr hrank⟩)
    exact hlt.ne (congrArg Int64.toInt heq)
  · rw [(cmp_eq_eq_iff _ _).mpr heq, IeeeFloat.partialCmp_eq_some, Int64.toInt.inj heq]
    exact ⟨hj, hj, compare_eq_iff_eq.mpr rfl⟩
  · rw [(cmp_eq_gt_iff _ _).mpr hgt, IeeeFloat.partialCmp_eq_some]
    have hle := IeeeFloat.rank_ofInt_mono hf hgt.le
    refine ⟨hi, hj, compare_gt_iff_gt.mpr (lt_of_le_of_ne hle ?_)⟩
    intro hrank
    have heq := h (IeeeFloat.partialCmp_eq_some.mpr ⟨hi, hj, compare_eq_iff_eq.mpr hrank.symm⟩)
    exact hgt.ne (congrArg Int64.toInt heq.symm)

theorem partialCmp_swap_eq {f : Ieee.Format} {x y : IeeeFloat f} (h : x.partialCmp y = some .eq) :
    y.partialCmp x = some .eq := by
  rw [IeeeFloat.partialCmp_swap, h]
  rfl

/-! ## Scalars

Away from such a collision, the comparison of scalars is a strict order with ties.
-/

/-- Whether a value is read as more than one leaf. -/
def isList : PropValue → Bool
  | list _ => true
  | _ => false

/-- The two values at a place of two lists. -/
theorem compareAt_cases (a b : PropValue) :
    (a = null ∧ b = null) ∨ compareAt a b = compareValues a b := by
  cases a <;> cases b <;> first | exact .inl ⟨rfl, rfl⟩ | exact .inr rfl

/-- **A scalar that ties with another compares as it does.** -/
theorem compareValues_congr {a b c : PropValue} (ha : a.isList = false) (h : NoCollision a b c)
    (heq : compareValues a b = some .eq) : compareValues a c = compareValues b c := by
  cases a <;> cases b <;> first
    | cases heq
    | exact Bool.noConfusion ha
    | skip
  case int.float i f =>
    cases c <;> first | rfl | exact IeeeFloat.partialCmp_congr heq _ | skip
    case int k =>
      have hcongr := IeeeFloat.partialCmp_congr heq (F64.ofInt64 k)
      change some _ = f.partialCmp (F64.ofInt64 k)
      rw [← hcongr, partialCmp_ofInt64]
      intro hik
      exact h heq (partialCmp_swap_eq (hcongr.symm.trans hik))
  case float.int f j =>
    cases c <;> first | rfl | exact IeeeFloat.partialCmp_congr heq _ | skip
    case int k =>
      have hcongr := IeeeFloat.partialCmp_congr heq (F64.ofInt64 k)
      change f.partialCmp (F64.ofInt64 k) = some _
      rw [hcongr, partialCmp_ofInt64]
      intro hjk
      exact h (partialCmp_swap_eq heq) (partialCmp_swap_eq (hcongr.trans hjk))
  case float.float f g =>
    cases c <;> first | rfl | exact IeeeFloat.partialCmp_congr heq _
  case map.map m n =>
    cases c <;> first | rfl | skip
    case map o =>
      have hmn : eqv (.map m) (.map n) = true := by
        rw [compareValues] at heq
        rw [eqv]
        by_contra hne
        rw [if_neg hne] at heq
        cases heq
      have hcongr : eqvEntries m o = eqvEntries n o := eqv_congr hmn (.map o)
      rw [compareValues, compareValues, hcongr]
  case bool.bool x y => rw [cmp_eq_eq_iff x y |>.mp (Option.some.inj heq)]
  case int.int i j => rw [Int64.toInt.inj (cmp_eq_eq_iff _ _ |>.mp (Option.some.inj heq))]
  case str.str s t => rw [String.utf8_injective (Bytes.cmp_eq_eq.mp (Option.some.inj heq))]
  case bytes.bytes x y => rw [Bytes.cmp_eq_eq.mp (Option.some.inj heq)]
  case timestamp.timestamp i j =>
    rw [Int64.toInt.inj (cmp_eq_eq_iff _ _ |>.mp (Option.some.inj heq))]
  case uuid.uuid x y =>
    rw [Vector.toList_inj.mp (Bytes.cmp_eq_eq.mp (Option.some.inj heq))]

theorem cmp_lt_trans {α : Type*} [LinearOrder α] {a b c : α} (hab : cmp a b = .lt)
    (hbc : cmp b c = .lt) : cmp a c = .lt :=
  (cmp_eq_lt_iff a c).mpr (((cmp_eq_lt_iff a b).mp hab).trans ((cmp_eq_lt_iff b c).mp hbc))

theorem Bytes.cmp_lt_trans {a b c : Bytes} (hab : Bytes.cmp a b = .lt) (hbc : Bytes.cmp b c = .lt) :
    Bytes.cmp a c = .lt :=
  Bytes.cmp_eq_lt.mpr (lt_trans (Bytes.cmp_eq_lt.mp hab) (Bytes.cmp_eq_lt.mp hbc))

theorem partialCmp_lt_trans {f : Ieee.Format} {x y z : IeeeFloat f}
    (hxy : x.partialCmp y = some .lt) (hyz : y.partialCmp z = some .lt) :
    x.partialCmp z = some .lt := by
  obtain ⟨hx, -, hxy⟩ := IeeeFloat.partialCmp_eq_some.mp hxy
  obtain ⟨-, hz, hyz⟩ := IeeeFloat.partialCmp_eq_some.mp hyz
  rw [compare_lt_iff_lt] at hxy hyz
  exact IeeeFloat.partialCmp_eq_some.mpr ⟨hx, hz, compare_lt_iff_lt.mpr (hxy.trans hyz)⟩

/-- Below a number that rounds to no less. -/
theorem partialCmp_ofInt64_lt {i j : Int64} (hij : cmp i.toInt j.toInt = .lt) {g : F64}
    (h : (F64.ofInt64 j).partialCmp g = some .lt) : (F64.ofInt64 i).partialCmp g = some .lt := by
  have hf : 2 ≤ Ieee.binary64.expBits := by decide
  obtain ⟨-, hg, hlt⟩ := IeeeFloat.partialCmp_eq_some.mp h
  have hle := IeeeFloat.rank_ofInt_mono hf ((cmp_eq_lt_iff _ _).mp hij).le
  rw [compare_lt_iff_lt] at hlt
  exact IeeeFloat.partialCmp_eq_some.mpr
    ⟨IeeeFloat.isNaN_ofInt hf _, hg, compare_lt_iff_lt.mpr (lt_of_le_of_lt hle hlt)⟩

/-- Above a number that rounds to no more. -/
theorem lt_partialCmp_ofInt64 {i j : Int64} (hij : cmp i.toInt j.toInt = .lt) {g : F64}
    (h : g.partialCmp (F64.ofInt64 i) = some .lt) : g.partialCmp (F64.ofInt64 j) = some .lt := by
  have hf : 2 ≤ Ieee.binary64.expBits := by decide
  obtain ⟨hg, -, hlt⟩ := IeeeFloat.partialCmp_eq_some.mp h
  have hle := IeeeFloat.rank_ofInt_mono hf ((cmp_eq_lt_iff _ _).mp hij).le
  rw [compare_lt_iff_lt] at hlt
  exact IeeeFloat.partialCmp_eq_some.mpr
    ⟨hg, IeeeFloat.isNaN_ofInt hf _, compare_lt_iff_lt.mpr (lt_of_lt_of_le hlt hle)⟩

/-- Integers on both sides of a number are in order. -/
theorem cmp_of_partialCmp {i j : Int64} {g : F64} (hi : (F64.ofInt64 i).partialCmp g = some .lt)
    (hj : g.partialCmp (F64.ofInt64 j) = some .lt) : cmp i.toInt j.toInt = .lt := by
  have hf : 2 ≤ Ieee.binary64.expBits := by decide
  have hlt := IeeeFloat.partialCmp_eq_some.mp (partialCmp_lt_trans hi hj) |>.2.2
  rw [compare_lt_iff_lt] at hlt
  rw [cmp_eq_lt_iff]
  by_contra hge
  exact absurd hlt (not_lt.mpr (IeeeFloat.rank_ofInt_mono hf (not_lt.mp hge)))

/-- **The order of scalars is transitive.** -/
theorem compareValues_lt_trans {a b c : PropValue} (ha : a.isList = false) (h : NoCollision a b c)
    (hab : compareValues a b = some .lt) (hbc : compareValues b c = some .lt) :
    compareValues a c = some .lt := by
  cases a <;> cases b <;> first
    | cases hab
    | exact Bool.noConfusion ha
    | skip
  all_goals cases c <;> first | cases hbc | skip
  case map.map.map m n o =>
    rw [compareValues] at hab
    split at hab <;> cases hab
  case bool.bool.bool =>
    exact congrArg some (cmp_lt_trans (Option.some.inj hab) (Option.some.inj hbc))
  case int.int.int =>
    exact congrArg some (cmp_lt_trans (Option.some.inj hab) (Option.some.inj hbc))
  case int.int.float => exact partialCmp_ofInt64_lt (Option.some.inj hab) hbc
  case int.float.int => exact congrArg some (cmp_of_partialCmp hab hbc)
  case float.int.int => exact lt_partialCmp_ofInt64 (Option.some.inj hbc) hab
  case int.float.float => exact partialCmp_lt_trans hab hbc
  case float.int.float => exact partialCmp_lt_trans hab hbc
  case float.float.int => exact partialCmp_lt_trans hab hbc
  case float.float.float => exact partialCmp_lt_trans hab hbc
  case str.str.str =>
    exact congrArg some (Bytes.cmp_lt_trans (Option.some.inj hab) (Option.some.inj hbc))
  case bytes.bytes.bytes =>
    exact congrArg some (Bytes.cmp_lt_trans (Option.some.inj hab) (Option.some.inj hbc))
  case timestamp.timestamp.timestamp =>
    exact congrArg some (cmp_lt_trans (Option.some.inj hab) (Option.some.inj hbc))
  case uuid.uuid.uuid =>
    exact congrArg some (Bytes.cmp_lt_trans (Option.some.inj hab) (Option.some.inj hbc))

theorem compareAt_swap (a b : PropValue) : compareAt b a = (compareAt a b).map .swap := by
  have hv := compareValues_swap a b
  cases a <;> cases b <;> first | rfl | exact hv

theorem compareAt_congr {a b c : PropValue} (ha : a.isList = false) (h : NoCollision a b c)
    (heq : compareAt a b = some .eq) : compareAt a c = compareAt b c := by
  rcases compareAt_cases a b with ⟨rfl, rfl⟩ | hvalues
  · rfl
  · have hv := hvalues.symm.trans heq
    have hcongr := compareValues_congr ha h hv
    cases a <;> cases b <;> first | cases hv | exact hcongr

theorem compareValues_of_compareAt_lt {a b : PropValue} (h : compareAt a b = some .lt) :
    compareValues a b = some .lt := by
  rcases compareAt_cases a b with ⟨rfl, rfl⟩ | hvalues
  · cases h
  · rwa [← hvalues]

theorem compareAt_of_compareValues_lt {a b : PropValue} (h : compareValues a b = some .lt) :
    compareAt a b = some .lt := by
  rcases compareAt_cases a b with ⟨rfl, rfl⟩ | hvalues
  · cases h
  · rwa [hvalues]

/-! ## Leaves -/

/-- What a list is read as: scalars, and brackets around those of a list. -/
inductive Leaf
  | opening
  | closing
  | scalar (v : PropValue) (h : v.isList = false)

mutual

/-- The leaves of a value. -/
def leaves : PropValue → List Leaf
  | list l => .opening :: leavesOf l
  | null => [.scalar null rfl]
  | bool b => [.scalar (bool b) rfl]
  | int i => [.scalar (int i) rfl]
  | float f => [.scalar (float f) rfl]
  | str s => [.scalar (str s) rfl]
  | bytes b => [.scalar (bytes b) rfl]
  | timestamp i => [.scalar (timestamp i) rfl]
  | uuid u => [.scalar (uuid u) rfl]
  | map m => [.scalar (map m) rfl]

/-- The leaves of the elements of a list, and the closing bracket. -/
def leavesOf : List PropValue → List Leaf
  | [] => [.closing]
  | v :: l => leaves v ++ leavesOf l

end

namespace Leaf

/-- How two leaves at the same place compare: a list that ends is below one that goes on. -/
def cmp : Leaf → Leaf → Option Ordering
  | closing, closing | opening, opening => some .eq
  | closing, _ => some .lt
  | _, closing => some .gt
  | scalar a _, scalar b _ => compareAt a b
  | _, _ => none

end Leaf

/-- A comparison that is decided, or goes on with what follows. -/
def continueWith (o rest : Option Ordering) : Option Ordering :=
  match o with
  | some .eq => rest
  | o => o

/-- Lexicographic: the first place that does not tie decides. -/
def compareLeaves : List Leaf → List Leaf → Option Ordering
  | [], [] => some .eq
  | [], _ :: _ => some .lt
  | _ :: _, [] => some .gt
  | u :: x, v :: y => continueWith (u.cmp v) (compareLeaves x y)

theorem exists_leaves_eq_cons (v : PropValue) :
    ∃ u l, leaves v = u :: l ∧ Leaf.closing.cmp u = some .lt ∧ u.cmp .closing = some .gt := by
  cases v <;> exact ⟨_, _, rfl, rfl, rfl⟩

theorem compareLeaves_leaves_append (a b : PropValue) (s t : List Leaf) :
    compareLeaves (leaves a ++ s) (leaves b ++ t) =
      continueWith (compareAt a b) (compareLeaves s t) := by
  induction a using inductOn generalizing b s t with
  | list x ih =>
    cases b
    case list y =>
      change compareLeaves (leavesOf x ++ s) (leavesOf y ++ t) =
        continueWith (compareLists x y) (compareLeaves s t)
      induction x generalizing y with
      | nil =>
        cases y with
        | nil => rfl
        | cons w y =>
          obtain ⟨u, l, hleaves, hlt, -⟩ := exists_leaves_eq_cons w
          rw [leavesOf, leavesOf, hleaves]
          change continueWith (Leaf.closing.cmp u) _ = _
          rw [hlt]
          rfl
      | cons v x ihx =>
        cases y with
        | nil =>
          obtain ⟨u, l, hleaves, -, hgt⟩ := exists_leaves_eq_cons v
          rw [leavesOf, leavesOf, hleaves]
          change continueWith (u.cmp .closing) _ = _
          rw [hgt]
          rfl
        | cons w y =>
          rw [leavesOf, leavesOf, List.append_assoc, List.append_assoc,
            ih v List.mem_cons_self, ihx (fun u hu ↦ ih u (List.mem_cons_of_mem v hu)),
            compareLists_cons]
          rcases compareAt v w with _ | _ | _ | _ <;> rfl
    all_goals rfl
  | map m ih => cases b <;> rfl
  | scalar v hlist hmap =>
    cases v <;> first | exact absurd rfl (hlist _) | (cases b <;> rfl)

/-- **Two lists compare as their leaves do.** -/
theorem compareLists_eq (x y : List PropValue) :
    compareLists x y = compareLeaves (leavesOf x) (leavesOf y) := by
  have h := compareLeaves_leaves_append (list x) (list y) [] []
  rw [List.append_nil, List.append_nil] at h
  change compareLeaves (leavesOf x) (leavesOf y) = continueWith (compareLists x y) (some .eq) at h
  rw [h]
  rcases compareLists x y with _ | _ | _ | _ <;> rfl

/-! ## Three leaves -/

namespace Leaf

/-- Of three leaves, there are not a `Float` and two different `Int`s that round to it. -/
def NoCollision : Leaf → Leaf → Leaf → Prop
  | scalar a _, scalar b _, scalar c _ => PropValue.NoCollision a b c
  | _, _, _ => True

variable {u v w : Leaf}

theorem cmp_swap (u v : Leaf) : v.cmp u = (u.cmp v).map .swap := by
  cases u <;> cases v <;> first | rfl | exact compareAt_swap _ _

theorem NoCollision.rotate (h : u.NoCollision v w) : v.NoCollision w u := by
  cases u <;> cases v <;> cases w <;> first | trivial | exact PropValue.NoCollision.rotate h

/-- A leaf that ties with another compares as it does. -/
theorem cmp_congr (h : u.NoCollision v w) (heq : u.cmp v = some .eq) : u.cmp w = v.cmp w := by
  cases u <;> cases v <;> first | cases heq | skip
  case opening.opening => rfl
  case closing.closing => rfl
  case scalar.scalar a ha b hb =>
    cases w
    case scalar c hc => exact compareAt_congr ha h heq
    all_goals rfl

theorem cmp_lt_trans (h : u.NoCollision v w) (huv : u.cmp v = some .lt) (hvw : v.cmp w = some .lt) :
    u.cmp w = some .lt := by
  cases u <;> cases v <;> first | cases huv | skip
  all_goals cases w <;> first | cases hvw | rfl | skip
  case scalar.scalar.scalar a ha b hb c hc =>
    exact compareAt_of_compareValues_lt (compareValues_lt_trans ha h
      (compareValues_of_compareAt_lt huv) (compareValues_of_compareAt_lt hvw))

end Leaf

/-! ## Three lists -/

/-- The first place where the leaves of three lists do not all tie with one another, and what stands
there when the first list is above the third but not above the second, nor the second above the
third. -/
inductive Crossed : List Leaf → List Leaf → List Leaf → Prop
  /-- Further on. -/
  | tied {u v w : Leaf} {x y z : List Leaf} (huv : u.cmp v = some .eq) (hvw : v.cmp w = some .eq)
      (huw : u.cmp w = some .eq) (h : Crossed x y z) : Crossed (u :: x) (v :: y) (w :: z)
  /-- The middle leaf compares with neither of the others, the first is above the third. -/
  | undecided {u v w : Leaf} {x y z : List Leaf} (huv : u.cmp v = none) (hvw : v.cmp w = none)
      (huw : u.cmp w = some .gt) : Crossed (u :: x) (v :: y) (w :: z)
  /-- The middle leaf compares with neither of the others, which tie; the first list comes out above
  the third further on. -/
  | undecidedTied {u v w : Leaf} {x y z : List Leaf} (huv : u.cmp v = none)
      (hvw : v.cmp w = none) (huw : u.cmp w = some .eq) (hxz : compareLeaves x z = some .gt) :
      Crossed (u :: x) (v :: y) (w :: z)
  /-- A `Float` between a greater and a smaller `Int`. -/
  | floatMiddle {i j : Int64} {f : F64} {hi hf hj} {x y z : List Leaf} (hlt : j.toInt < i.toInt)
      (hif : (F64.ofInt64 i).partialCmp f = some .eq) (hjf : (F64.ofInt64 j).partialCmp f = some .eq)
      (hxy : compareLeaves x y ≠ some .gt) (hyz : compareLeaves y z ≠ some .gt) :
      Crossed (.scalar (int i) hi :: x) (.scalar (float f) hf :: y) (.scalar (int j) hj :: z)
  /-- A `Float` before a smaller and a greater `Int`. -/
  | floatFirst {i j : Int64} {f : F64} {hi hf hj} {x y z : List Leaf} (hlt : i.toInt < j.toInt)
      (hif : (F64.ofInt64 i).partialCmp f = some .eq) (hjf : (F64.ofInt64 j).partialCmp f = some .eq)
      (hxy : compareLeaves x y ≠ some .gt) (hxz : compareLeaves x z = some .gt) :
      Crossed (.scalar (float f) hf :: x) (.scalar (int i) hi :: y) (.scalar (int j) hj :: z)
  /-- A `Float` after a smaller and a greater `Int`. -/
  | floatLast {i j : Int64} {f : F64} {hi hf hj} {x y z : List Leaf} (hlt : i.toInt < j.toInt)
      (hif : (F64.ofInt64 i).partialCmp f = some .eq) (hjf : (F64.ofInt64 j).partialCmp f = some .eq)
      (hyz : compareLeaves y z ≠ some .gt) (hxz : compareLeaves x z = some .gt) :
      Crossed (.scalar (int i) hi :: x) (.scalar (int j) hj :: y) (.scalar (float f) hf :: z)

/-- The first list is above the third, but not above the second, nor the second above the third. -/
structure Overtakes (x y z : List Leaf) : Prop where
  first : compareLeaves x y ≠ some .gt
  second : compareLeaves y z ≠ some .gt
  outer : compareLeaves x z = some .gt

theorem continueWith_ne_gt {o rest : Option Ordering} :
    continueWith o rest ≠ some .gt ↔ o ≠ some .gt ∧ (o = some .eq → rest ≠ some .gt) := by
  rcases o with _ | _ | _ | _ <;> simp [continueWith]

theorem continueWith_eq_gt {o rest : Option Ordering} :
    continueWith o rest = some .gt ↔ o = some .gt ∨ o = some .eq ∧ rest = some .gt := by
  rcases o with _ | _ | _ | _ <;> simp [continueWith]

theorem overtakes_cons {u v w : Leaf} {x y z : List Leaf} :
    Overtakes (u :: x) (v :: y) (w :: z) ↔
      (u.cmp v ≠ some .gt ∧ (u.cmp v = some .eq → compareLeaves x y ≠ some .gt)) ∧
        (v.cmp w ≠ some .gt ∧ (v.cmp w = some .eq → compareLeaves y z ≠ some .gt)) ∧
          (u.cmp w = some .gt ∨ u.cmp w = some .eq ∧ compareLeaves x z = some .gt) := by
  rw [← continueWith_ne_gt, ← continueWith_ne_gt, ← continueWith_eq_gt]
  exact ⟨fun h ↦ ⟨h.first, h.second, h.outer⟩, fun h ↦ ⟨h.1, h.2.1, h.2.2⟩⟩

/-- Where a list ends, three lists are in order. -/
theorem Overtakes.exists_cons {x y z : List Leaf} (h : Overtakes x y z) :
    ∃ u x' v y' w z', x = u :: x' ∧ y = v :: y' ∧ z = w :: z' := by
  obtain ⟨hxy, hyz, hxz⟩ := h
  cases x <;> cases y <;> cases z <;>
    first
    | exact ⟨_, _, _, _, _, _, rfl, rfl, rfl⟩
    | simp [compareLeaves] at hxy hyz hxz

section Collision

variable {i j : Int64} {f : F64} (hi : (int i).isList = false) (hj : (int j).isList = false)
  (hf : (float f).isList = false)

theorem Leaf.cmp_int_float (h : (F64.ofInt64 i).partialCmp f = some .eq) :
    (Leaf.scalar (int i) hi).cmp (.scalar (float f) hf) = some .eq := h

theorem Leaf.cmp_float_int (h : (F64.ofInt64 i).partialCmp f = some .eq) :
    (Leaf.scalar (float f) hf).cmp (.scalar (int i) hi) = some .eq := partialCmp_swap_eq h

theorem Leaf.cmp_int_int_of_lt (h : i.toInt < j.toInt) :
    (Leaf.scalar (int i) hi).cmp (.scalar (int j) hj) = some .lt :=
  congrArg some ((cmp_eq_lt_iff _ _).mpr h)

theorem Leaf.cmp_int_int_of_gt (h : j.toInt < i.toInt) :
    (Leaf.scalar (int i) hi).cmp (.scalar (int j) hj) = some .gt :=
  congrArg some ((cmp_eq_gt_iff _ _).mpr h)

variable {x y z : List Leaf}

/-- A `Float` between two different `Int`s that round to it. -/
theorem overtakes_floatMiddle (hne : i.toInt ≠ j.toInt)
    (hif : (F64.ofInt64 i).partialCmp f = some .eq)
    (hjf : (F64.ofInt64 j).partialCmp f = some .eq) :
    Overtakes (.scalar (int i) hi :: x) (.scalar (float f) hf :: y) (.scalar (int j) hj :: z) ↔
      j.toInt < i.toInt ∧ compareLeaves x y ≠ some .gt ∧ compareLeaves y z ≠ some .gt := by
  rw [overtakes_cons, Leaf.cmp_int_float hi hf hif, Leaf.cmp_float_int hj hf hjf]
  rcases lt_or_gt_of_ne hne with hlt | hgt
  · rw [Leaf.cmp_int_int_of_lt hi hj hlt]
    simp [hlt.le]
  · rw [Leaf.cmp_int_int_of_gt hi hj hgt]
    simp [hgt]

/-- A `Float` before two different `Int`s that round to it. -/
theorem overtakes_floatFirst (hne : i.toInt ≠ j.toInt)
    (hif : (F64.ofInt64 i).partialCmp f = some .eq)
    (hjf : (F64.ofInt64 j).partialCmp f = some .eq) :
    Overtakes (.scalar (float f) hf :: x) (.scalar (int i) hi :: y) (.scalar (int j) hj :: z) ↔
      i.toInt < j.toInt ∧ compareLeaves x y ≠ some .gt ∧ compareLeaves x z = some .gt := by
  rw [overtakes_cons, Leaf.cmp_float_int hi hf hif, Leaf.cmp_float_int hj hf hjf]
  rcases lt_or_gt_of_ne hne with hlt | hgt
  · rw [Leaf.cmp_int_int_of_lt hi hj hlt]
    simp [hlt]
  · rw [Leaf.cmp_int_int_of_gt hi hj hgt]
    simp [hgt.le]

/-- A `Float` after two different `Int`s that round to it. -/
theorem overtakes_floatLast (hne : i.toInt ≠ j.toInt)
    (hif : (F64.ofInt64 i).partialCmp f = some .eq)
    (hjf : (F64.ofInt64 j).partialCmp f = some .eq) :
    Overtakes (.scalar (int i) hi :: x) (.scalar (int j) hj :: y) (.scalar (float f) hf :: z) ↔
      i.toInt < j.toInt ∧ compareLeaves y z ≠ some .gt ∧ compareLeaves x z = some .gt := by
  rw [overtakes_cons, Leaf.cmp_int_float hi hf hif, Leaf.cmp_int_float hj hf hjf]
  rcases lt_or_gt_of_ne hne with hlt | hgt
  · rw [Leaf.cmp_int_int_of_lt hi hj hlt]
    simp [hlt]
  · rw [Leaf.cmp_int_int_of_gt hi hj hgt]
    simp [hgt.le]

end Collision

theorem Crossed.overtakes {x y z : List Leaf} (h : Crossed x y z) : Overtakes x y z := by
  induction h with
  | tied huv hvw huw h ih =>
    rw [overtakes_cons, huv, hvw, huw]
    simp [ih.first, ih.second, ih.outer]
  | undecided huv hvw huw =>
    rw [overtakes_cons, huv, hvw, huw]
    simp
  | undecidedTied huv hvw huw hxz =>
    rw [overtakes_cons, huv, hvw, huw]
    simp [hxz]
  | floatMiddle hlt hif hjf hxy hyz =>
    exact (overtakes_floatMiddle _ _ _ hlt.ne' hif hjf).mpr ⟨hlt, hxy, hyz⟩
  | floatFirst hlt hif hjf hxy hxz =>
    exact (overtakes_floatFirst _ _ _ hlt.ne hif hjf).mpr ⟨hlt, hxy, hxz⟩
  | floatLast hlt hif hjf hyz hxz =>
    exact (overtakes_floatLast _ _ _ hlt.ne hif hjf).mpr ⟨hlt, hyz, hxz⟩

theorem exists_of_not_distinct {i j : Int64} {f : F64} (h : ¬ Distinct i j f) :
    i.toInt ≠ j.toInt ∧ (F64.ofInt64 i).partialCmp f = some .eq ∧
      (F64.ofInt64 j).partialCmp f = some .eq := by
  rw [Distinct, Classical.not_imp, Classical.not_imp] at h
  exact ⟨fun heq ↦ h.2.2 (Int64.toInt.inj heq), h.1, h.2.1⟩

/-- Leaves that collide are out of order in one of the three arrangements. -/
theorem crossed_of_collision {u v w : Leaf} {x y z : List Leaf} (hc : ¬ u.NoCollision v w)
    (h : Overtakes (u :: x) (v :: y) (w :: z)) : Crossed (u :: x) (v :: y) (w :: z) := by
  rcases u with _ | _ | ⟨a, ha⟩ <;> rcases v with _ | _ | ⟨b, hb⟩ <;>
    rcases w with _ | _ | ⟨c, hc'⟩ <;> first | exact absurd trivial hc | skip
  cases a <;> cases b <;> cases c <;> first | exact absurd trivial hc | skip
  case int.int.float i j f =>
    obtain ⟨hne, hif, hjf⟩ := exists_of_not_distinct hc
    obtain ⟨hlt, hyz, hxz⟩ := (overtakes_floatLast _ _ _ hne hif hjf).mp h
    exact .floatLast hlt hif hjf hyz hxz
  case int.float.int i f j =>
    obtain ⟨hne, hif, hjf⟩ := exists_of_not_distinct hc
    obtain ⟨hlt, hxy, hyz⟩ := (overtakes_floatMiddle _ _ _ hne hif hjf).mp h
    exact .floatMiddle hlt hif hjf hxy hyz
  case float.int.int f i j =>
    obtain ⟨hne, hif, hjf⟩ := exists_of_not_distinct hc
    obtain ⟨hlt, hxy, hxz⟩ := (overtakes_floatFirst _ _ _ hne hif hjf).mp h
    exact .floatFirst hlt hif hjf hxy hxz

/-- Without a collision, leaves that do not all tie leave the middle one undecided. -/
theorem undecided_of_noCollision {u v w : Leaf} (h : u.NoCollision v w)
    (huv : u.cmp v ≠ some .gt) (hvw : v.cmp w ≠ some .gt)
    (huw : u.cmp w = some .gt ∨ u.cmp w = some .eq)
    (hne : ¬ (u.cmp v = some .eq ∧ v.cmp w = some .eq ∧ u.cmp w = some .eq)) :
    u.cmp v = none ∧ v.cmp w = none := by
  have hgt_iff : ∀ a b : Leaf, a.cmp b = some .gt ↔ b.cmp a = some .lt := fun a b ↦ by
    rw [Leaf.cmp_swap b a]
    rcases b.cmp a with _ | _ | _ | _ <;> simp
  have heq_symm : ∀ a b : Leaf, a.cmp b = some .eq → b.cmp a = some .eq := fun a b h ↦ by
    rw [Leaf.cmp_swap a b, h]
    rfl
  have huv_eq : u.cmp v ≠ some .eq := by
    intro heq
    have hcongr := Leaf.cmp_congr h heq
    rcases huw with huw | huw
    · exact hvw (hcongr.symm.trans huw)
    · exact hne ⟨heq, hcongr.symm.trans huw, huw⟩
  have hvw_eq : v.cmp w ≠ some .eq := by
    intro heq
    have hcongr := Leaf.cmp_congr h.rotate heq
    rcases huw with huw | huw
    · exact huv ((hgt_iff u v).mpr (hcongr.trans ((hgt_iff u w).mp huw)))
    · exact hne ⟨heq_symm v u (hcongr.trans (heq_symm u w huw)), heq, huw⟩
  have huv_lt : u.cmp v ≠ some .lt := by
    intro hlt
    refine hvw ((hgt_iff v w).mpr ?_)
    rcases huw with huw | huw
    · exact Leaf.cmp_lt_trans h.rotate.rotate ((hgt_iff u w).mp huw) hlt
    · exact (Leaf.cmp_congr h.rotate.rotate (heq_symm u w huw)).trans hlt
  have hvw_lt : v.cmp w ≠ some .lt := by
    intro hlt
    refine huv ?_
    rcases huw with huw | huw
    · exact (hgt_iff u v).mpr (Leaf.cmp_lt_trans h.rotate hlt ((hgt_iff u w).mp huw))
    · rw [← Leaf.cmp_congr h.rotate.rotate (heq_symm u w huw)]
      exact (hgt_iff w v).mpr hlt
  constructor
  · rcases huv' : u.cmp v with _ | _ | _ | _ <;> first | rfl | contradiction
  · rcases hvw' : v.cmp w with _ | _ | _ | _ <;> first | rfl | contradiction

/-- **Three lists are out of order exactly in the ways listed.** -/
theorem crossed_iff {x y z : List Leaf} : Crossed x y z ↔ Overtakes x y z := by
  refine ⟨Crossed.overtakes, fun h ↦ ?_⟩
  induction x generalizing y z with
  | nil =>
    obtain ⟨u, x', -, -, -, -, heq, -⟩ := h.exists_cons
    cases heq
  | cons u x ih =>
    obtain ⟨-, -, v, y, w, z, -, rfl, rfl⟩ := h.exists_cons
    by_cases hc : u.NoCollision v w
    · obtain ⟨⟨huv, hxy⟩, ⟨hvw, hyz⟩, huw⟩ := overtakes_cons.mp h
      by_cases htie : u.cmp v = some .eq ∧ v.cmp w = some .eq ∧ u.cmp w = some .eq
      · obtain ⟨htuv, htvw, htuw⟩ := htie
        refine .tied htuv htvw htuw (ih ⟨hxy htuv, hyz htvw, ?_⟩)
        exact huw.elim (fun hgt ↦ by rw [htuw] at hgt; cases hgt) And.right
      · obtain ⟨hnuv, hnvw⟩ := undecided_of_noCollision hc huv hvw (huw.imp_right And.left) htie
        rcases huw with hgt | ⟨heq, hxz⟩
        · exact .undecided hnuv hnvw hgt
        · exact .undecidedTied hnuv hnvw heq hxz
    · exact crossed_of_collision hc h

end PropValue
