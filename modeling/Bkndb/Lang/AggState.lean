import Bkndb.Basic.Int64
import Bkndb.Core.Error

/-!
# Aggregates of graph queries

The aggregation state of one aggregate in one group of a `MATCH` (`lang/graph/project.rs`). Values
arrive one by one, in the order the matches are found.

The sum of integers is kept in 64 bits with an overflow flag that stays set, so that what it answers
depends on the sums met on the way (`AggState.sum_correct_iff`).

## Why the order matters

When a partial sum leaves the range, the flag is set and the float that is kept beside the integer
is answered, even if later terms bring the sum back. So one order of the same values may be
answered with an integer and another one with a float. `SumCorrect` asks for the right answer in
every order; `sumCorrect_iff` says when it is given, in terms of the positive and the negative
terms alone.
-/

/-- An aggregate function. -/
inductive GAgg where
  | count
  | sum
  | avg
  | min
  | max
  | collect
  deriving DecidableEq, Repr

/-- Aggregation state for one aggregate in one group. -/
inductive AggState where
  | count (n : Int64)
  | sum (int : Int64) (float : F64) (allInt any overflow : Bool)
  | avg (total : F64) (n : ℕ)
  | extreme (cur : Option PropValue)
  | collect (items : List PropValue)

namespace AggState

/-- The state before any value. -/
def new : GAgg → AggState
  | .count => .count 0
  | .sum => .sum 0 F64.zero true false false
  | .avg => .avg F64.zero 0
  | .min | .max => .extreme none
  | .collect => .collect []

/-- The number an aggregated value is. -/
def numeric : PropValue → Except BknError F64
  | .int i => .ok (F64.ofInt64 i)
  | .float x => .ok x
  | other => .error (.invalidQuery (s!"sum/avg need numbers, got {other.kindName}" : String))

/-- `n += 1` on a count. -/
def bump (n : Int64) : Except BknError AggState :=
  match n.checkedAdd 1 with
  | some n => .ok (.count n)
  | none => .error (.panic "attempt to add with overflow")

/-- Whether a value takes the place of the extreme one so far. -/
def replaces (f : GAgg) (v : PropValue) : Option PropValue → Bool
  | none => true
  | some c =>
    let o := PropValue.totalCmp (some v) (some c)
    if f = .min then o.isLT else o.isGT

/-- One more value; without one, a match to be counted. Nulls are passed over. -/
def add (f : GAgg) (s : AggState) : Option PropValue → Except BknError AggState
  | none =>
    match s with
    | .count n => bump n
    | s => .ok s
  | some .null => .ok s
  | some v =>
    match s with
    | .count n => bump n
    | .sum int float allInt _ overflow => do
      let float := float.add (← numeric v)
      match v with
      | .int i =>
        match int.checkedAdd i with
        | some s => return .sum s float allInt true overflow
        | none => return .sum int float allInt true true
      | _ => return .sum int float false true overflow
    | .avg total n => do
      let total := total.add (← numeric v)
      return .avg total (← checkedAdd n 1)
    | .extreme cur => .ok (.extreme (if replaces f v cur then some v else cur))
    | .collect items => .ok (.collect (items ++ [v]))

/-- The aggregate's value. -/
def finish : AggState → PropValue
  | .count n => .int n
  | .sum _ _ _ false _ => .null
  | .sum int _ true _ false => .int int
  | .sum _ float _ _ _ => .float float
  | .avg _ 0 => .null
  | .avg total n => .float (total.div (IeeeFloat.ofInt n))
  | .extreme v => v.getD .null
  | .collect items => .list items

/-- An aggregate over values in the order they arrive. -/
def aggregate (f : GAgg) (vs : List PropValue) : Except BknError PropValue :=
  finish <$> vs.foldlM (fun s v ↦ s.add f (some v)) (new f)

/-! ## The sum of integers

The state after a list of integers says whether any of the sums met on the way left the range
(`Summed`), and the module on running sums says for which lists every order stays in it. -/

/-- An integer, or null. -/
def IsIntOrNull : PropValue → Prop
  | .int _ | .null => True
  | _ => False

/-- The integer a value is. -/
def asInt : PropValue → Option ℤ
  | .int i => some i.toInt
  | _ => none

/-- The integers among the values. -/
def integers (vs : List PropValue) : List ℤ := vs.filterMap asInt

/-- Whether a value is an integer. -/
def isInt (v : PropValue) : Bool := (asInt v).isSome

/-- A state of a sum of integers, after the integers `xs`: the flag tells whether a partial sum left
the 64-bit range, and the integer is their sum if none did. -/
structure Summed (xs : List ℤ) (s : AggState) : Prop where
  state : ∃ int float overflow, s = .sum int float true (!xs.isEmpty) overflow ∧
    (overflow = false ↔ RunningSum.Stays Int64.Fits 0 xs) ∧
    (overflow = false → int.toInt = xs.sum)

theorem summed_new : Summed [] (new .sum) :=
  ⟨0, F64.zero, false, rfl, by simp, fun _ ↦ by simp⟩

/-- What one value does to a sum of integers. -/
theorem Summed.add {xs : List ℤ} {s : AggState} (h : Summed xs s) {v : PropValue}
    (hv : IsIntOrNull v) :
    ∃ s', s.add .sum (some v) = .ok s' ∧ Summed (xs ++ (asInt v).toList) s' := by
  obtain ⟨int, float, overflow, rfl, hflag, hsum⟩ := h
  cases v
  case null =>
    refine ⟨.sum int float true (!xs.isEmpty) overflow, rfl, ⟨int, float, overflow, ?_, ?_, ?_⟩⟩
    · simp [asInt]
    · simpa [asInt] using hflag
    · simpa [asInt] using hsum
  case int i =>
    have hstays : RunningSum.Stays Int64.Fits 0 (xs ++ (asInt (.int i)).toList) ↔
        RunningSum.Stays Int64.Fits 0 xs ∧ Int64.Fits (xs.sum + i.toInt) := by
      rw [RunningSum.stays_append]
      simp [asInt]
    have hany : (!(xs ++ (asInt (.int i)).toList).isEmpty) = true := by simp [asInt]
    have htotal : (xs ++ (asInt (.int i)).toList).sum = xs.sum + i.toInt := by simp [asInt]
    cases hadd : int.checkedAdd i with
    | some t =>
      refine ⟨.sum t (float.add (F64.ofInt64 i)) true true overflow, ?_, _, _, _, by rw [hany], ?_,
        ?_⟩
      · simp only [AggState.add, numeric, Except.ok_bind, hadd]
        rfl
      · have hfits : t.toInt = int.toInt + i.toInt := Int64.tryFrom_eq_some.mp hadd
        rw [hstays, hflag]
        refine ⟨fun h ↦ ⟨h, ?_⟩, And.left⟩
        rw [← hsum (hflag.mpr h), ← hfits]
        exact t.fits_toInt
      · intro h
        rw [htotal, ← hsum h]
        exact Int64.tryFrom_eq_some.mp hadd
    | none =>
      refine ⟨.sum int (float.add (F64.ofInt64 i)) true true true, ?_, _, _, _, by rw [hany], ?_, ?_⟩
      · simp only [AggState.add, numeric, Except.ok_bind, hadd]
        rfl
      · rw [hstays]
        refine ⟨fun h ↦ (Bool.noConfusion h), fun ⟨h, hfits⟩ ↦ ?_⟩
        rw [← hsum (hflag.mpr h)] at hfits
        exact absurd hfits (Int64.tryFrom_eq_none.mp hadd)
      · intro h
        cases h
  all_goals exact hv.elim

theorem Summed.foldlM {xs : List ℤ} {s : AggState} (h : Summed xs s) {vs : List PropValue}
    (hvs : ∀ v ∈ vs, IsIntOrNull v) :
    ∃ s', vs.foldlM (fun s v ↦ s.add .sum (some v)) s = .ok s' ∧
      Summed (xs ++ integers vs) s' := by
  induction vs generalizing xs s with
  | nil => exact ⟨s, rfl, by simpa [integers] using h⟩
  | cons v vs ih =>
    obtain ⟨s₁, hadd, h₁⟩ := h.add (hvs v List.mem_cons_self)
    obtain ⟨s₂, hrest, h₂⟩ := ih h₁ fun w hw ↦ hvs w (List.mem_cons_of_mem v hw)
    refine ⟨s₂, ?_, ?_⟩
    · rw [List.foldlM_cons, hadd]
      exact hrest
    · have hints : integers (v :: vs) = (asInt v).toList ++ integers vs := by
        rw [integers, List.filterMap_cons]
        cases asInt v <;> rfl
      rwa [hints, ← List.append_assoc]

/-- **What a sum of integers answers**: null without an integer, the exact sum when no partial sum
leaves the 64-bit range, and a floating-point number otherwise. -/
theorem aggregate_sum {vs : List PropValue} (hvs : ∀ v ∈ vs, IsIntOrNull v) :
    ∃ x, aggregate .sum vs = .ok (if integers vs = [] then .null
      else if RunningSum.Stays Int64.Fits 0 (integers vs) then .int (.ofInt (integers vs).sum)
      else .float x) := by
  obtain ⟨s, hrun, int, float, overflow, rfl, hflag, hsum⟩ := summed_new.foldlM hvs
  rw [List.nil_append] at hflag hsum
  refine ⟨float, ?_⟩
  rw [aggregate, hrun, List.nil_append]
  change Except.ok (finish _) = _
  congr 1
  split
  case isTrue hnil => rw [hnil]; rfl
  case isFalse hne =>
    have hany : (!(integers vs).isEmpty) = true := by simpa using hne
    rw [hany]
    split
    case isTrue hstays =>
      obtain rfl := hflag.mpr hstays
      rw [← hsum rfl, Int64.ofInt_toInt]
      rfl
    case isFalse hleaves =>
      cases overflow
      · exact absurd (hflag.mp rfl) hleaves
      · rfl

theorem isInt_aggregate_sum {vs : List PropValue} (hvs : ∀ v ∈ vs, IsIntOrNull v) :
    ∃ u, aggregate .sum vs = .ok u ∧
      (isInt u = true ↔ integers vs ≠ [] ∧ RunningSum.Stays Int64.Fits 0 (integers vs)) := by
  obtain ⟨x, hx⟩ := aggregate_sum hvs
  refine ⟨_, hx, ?_⟩
  split
  case isTrue hnil => simp [isInt, asInt, hnil]
  case isFalse hne => split <;> simp_all [isInt, asInt]

/-- What a sum of integers is to answer, whatever the order in which the values arrive. -/
structure SumCorrect (vs : List PropValue) : Prop where
  /-- Null, if there is no integer. -/
  null : integers vs = [] → ∀ ws : List PropValue, ws.Perm vs → aggregate .sum ws = .ok .null
  /-- The exact sum, if it is a 64-bit integer. -/
  exact : integers vs ≠ [] → Int64.Fits (integers vs).sum →
    ∀ ws : List PropValue, ws.Perm vs →
      aggregate .sum ws = .ok (.int (.ofInt (integers vs).sum))
  /-- Always an integer, or never. -/
  kind : ∀ ws ws' : List PropValue, ws.Perm vs → ws'.Perm vs →
    ∃ u u', aggregate .sum ws = .ok u ∧ aggregate .sum ws' = .ok u' ∧ isInt u = isInt u'

theorem integers_perm {vs ws : List PropValue} (h : ws.Perm vs) :
    (integers ws).Perm (integers vs) := h.filterMap _

theorem exists_perm_integers {vs : List PropValue} {xs : List ℤ} (h : xs.Perm (integers vs)) :
    ∃ ws : List PropValue, ws.Perm vs ∧ integers ws = xs := by
  induction vs generalizing xs with
  | nil => exact ⟨[], .nil, (List.Perm.eq_nil h).symm⟩
  | cons v vs ih =>
    cases hv : asInt v with
    | none =>
      have hskip : integers (v :: vs) = integers vs := List.filterMap_cons_none hv
      rw [hskip] at h
      obtain ⟨ws, hperm, hints⟩ := ih h
      exact ⟨v :: ws, hperm.cons v, (List.filterMap_cons_none hv).trans hints⟩
    | some z =>
      have hhead : integers (v :: vs) = z :: integers vs := List.filterMap_cons_some hv
      rw [hhead] at h
      -- the place of this integer in the new order is where its value goes
      obtain ⟨l, r, rfl⟩ := List.append_of_mem (h.symm.subset List.mem_cons_self)
      obtain ⟨ws, hperm, hints⟩ := ih ((List.perm_cons z).mp (List.perm_middle.symm.trans h))
      obtain ⟨wl, wr, rfl, hl, hr⟩ := List.filterMap_eq_append_iff.mp hints
      refine ⟨wl ++ v :: wr, List.perm_middle.trans (hperm.cons v), ?_⟩
      rw [integers, List.filterMap_append, List.filterMap_cons_some hv, hl, hr]

theorem sum_integers_perm {vs ws : List PropValue} (h : ws.Perm vs) :
    (integers ws).sum = (integers vs).sum := (integers_perm h).sum_eq

theorem integers_eq_nil_perm {vs ws : List PropValue} (h : ws.Perm vs) :
    integers ws = [] ↔ integers vs = [] := by
  rw [← List.length_eq_zero_iff, ← List.length_eq_zero_iff, (integers_perm h).length_eq]

theorem not_stays_of_not_fits {vs ws : List PropValue} (hfits : ¬ Int64.Fits (integers vs).sum)
    (h : ws.Perm vs) : ¬ RunningSum.Stays Int64.Fits 0 (integers ws) := by
  intro hs
  have htotal := hs.sum Int64.fits_zero
  rw [zero_add, sum_integers_perm h] at htotal
  exact hfits htotal

/-- **When a sum of integers is right in every order**: its exact value is no 64-bit integer, or
neither its positive nor its negative terms can overflow. -/
theorem sumCorrect_iff (vs : List PropValue) (hvs : ∀ v ∈ vs, IsIntOrNull v) :
    SumCorrect vs ↔ ¬ Int64.Fits (integers vs).sum ∨
      -2 ^ 63 ≤ RunningSum.negatives (integers vs) ∧
        RunningSum.positives (integers vs) ≤ 2 ^ 63 - 1 := by
  rw [← RunningSum.forall_perm_stays_iff (integers vs) Int64.fits_zero]
  have hof : ∀ {ws : List PropValue}, ws.Perm vs → ∀ v ∈ ws, IsIntOrNull v :=
    fun hperm v hv ↦ hvs v (hperm.subset hv)
  constructor
  · intro h
    rw [or_iff_not_imp_left, not_not]
    intro hfits xs hxs
    obtain ⟨ws, hperm, rfl⟩ := exists_perm_integers hxs
    by_contra hleaves
    have hne : integers ws ≠ [] := fun hnil ↦ hleaves (hnil ▸ trivial)
    obtain ⟨x, hx⟩ := aggregate_sum (hof hperm)
    rw [if_neg hne, if_neg hleaves,
      h.exact ((integers_eq_nil_perm hperm).not.mp hne) hfits ws hperm] at hx
    cases hx
  · intro h
    have hstays : Int64.Fits (integers vs).sum → ∀ {ws : List PropValue}, ws.Perm vs →
        RunningSum.Stays Int64.Fits 0 (integers ws) :=
      fun hfits ws hperm ↦ (h.resolve_left (not_not.mpr hfits)) _ (integers_perm hperm)
    refine ⟨?_, ?_, ?_⟩
    · intro hnil ws hperm
      obtain ⟨x, hx⟩ := aggregate_sum (hof hperm)
      rwa [if_pos ((integers_eq_nil_perm hperm).mpr hnil)] at hx
    · intro hne hfits ws hperm
      obtain ⟨x, hx⟩ := aggregate_sum (hof hperm)
      rwa [if_neg ((integers_eq_nil_perm hperm).not.mpr hne), if_pos (hstays hfits hperm),
        sum_integers_perm hperm] at hx
    · intro ws ws' hperm hperm'
      obtain ⟨u, hu, hint⟩ := isInt_aggregate_sum (hof hperm)
      obtain ⟨u', hu', hint'⟩ := isInt_aggregate_sum (hof hperm')
      refine ⟨u, u', hu, hu', ?_⟩
      rw [Bool.eq_iff_iff, hint, hint', ne_eq, ne_eq, integers_eq_nil_perm hperm,
        integers_eq_nil_perm hperm']
      rcases h with hfits | hall
      · simp [not_stays_of_not_fits hfits hperm, not_stays_of_not_fits hfits hperm']
      · simp [hall _ (integers_perm hperm), hall _ (integers_perm hperm')]

/-- The largest integer, then one more, then one less. -/
theorem not_sumCorrect :
    ¬ SumCorrect [.int 9223372036854775807, .int 1, .int (-1)] := by
  intro h
  have hvs : ∀ v ∈ [PropValue.int 9223372036854775807, .int 1, .int (-1)], IsIntOrNull v := by
    simp [IsIntOrNull]
  obtain ⟨x, hx⟩ := aggregate_sum hvs
  rw [if_neg (by decide), if_neg (by decide), h.exact (by decide) (by decide) _ (.refl _)] at hx
  cases hx

theorem sumCorrect_iff_small :
    SumCorrect [.int 3, .null, .int (-5)] ↔
      ¬ Int64.Fits (integers [.int 3, .null, .int (-5)]).sum ∨
        -2 ^ 63 ≤ RunningSum.negatives (integers [.int 3, .null, .int (-5)]) ∧
          RunningSum.positives (integers [.int 3, .null, .int (-5)]) ≤ 2 ^ 63 - 1 :=
  sumCorrect_iff _ (by simp [IsIntOrNull])

end AggState
