import Bkndb.Basic.Utf8
import Bkndb.Basic.Wildcard
import Bkndb.Lang.Cond

/-!
# `LIKE`

The matcher of `like_matches` is the greedy matcher of `Bkndb.Basic.Wildcard`, so it ends and
decides whether a text can be cut to the pattern. A pattern with a `%` at its end and no other
wildcard is matched by the texts with a prefix, byte for byte, so the expression that a condition is
bound to says the same as the pattern itself.

## Main results

* `likeMatches_spec`: the loop ends, and its answer is whether the text can be cut to the pattern.
* `eval_likeExpr`: a prefix test says the same as the pattern it was made from.
* `like_spec`: so binding a `LIKE` or `ILIKE` condition keeps its meaning.

`ILIKE` is the same on lowercased text and pattern, whatever the tables for lowercasing are.
-/

/-! ## The matcher

The loop of the source keeps two indices and the place to resume from. With the fuel it is given it
never runs out, since the number of steps is bounded by the lengths. -/

/-- The element that takes any run of characters. -/
def likeAny (x : Char) : Bool := x == '%'

/-- A character fits an underscore or itself. -/
def likeFits (x c : Char) : Bool := x == '_' || (x != '%' && x == c)

theorem likeFits_not_any (x c : Char) (h : likeFits x c = true) : likeAny x = false := by
  rw [likeFits, Bool.or_eq_true, Bool.and_eq_true] at h
  rcases h with h | ⟨h, -⟩
  · rw [beq_iff_eq] at h
    subst h
    rfl
  · simpa [likeAny] using h

/-- The loop, step by step, on a text and a pattern that are already folded. -/
def likeRun (t p : List Char) : Option Bool :=
  Wildcard.run likeAny likeFits t p ((t.length + 2) * (p.length + 2)) ⟨0, 0, none⟩

theorem likeLoop_eq_run (t p : List Char) (fuel : ℕ) (s : Wildcard.State) :
    likeLoop t p fuel s.ti s.pi s.back = (Wildcard.run likeAny likeFits t p fuel s).getD false := by
  induction fuel generalizing s with
  | zero => rfl
  | succ fuel ih =>
    unfold likeLoop
    rw [Wildcard.run, Wildcard.step]
    cases t[s.ti]? with
    | none => rfl
    | some c =>
      dsimp only
      cases p[s.pi]? with
      | none =>
        cases hback : s.back with
        | none => simp
        | some b => simpa using ih ⟨b.2 + 1, b.1 + 1, some (b.1, b.2 + 1)⟩
      | some x =>
        simp only [Option.any_some, Option.some.injEq]
        rw [← likeFits]
        by_cases hfits : likeFits x c = true
        · rw [if_pos hfits, if_pos hfits]
          exact ih ⟨s.ti + 1, s.pi + 1, s.back⟩
        rw [if_neg hfits, if_neg hfits]
        by_cases hany : x = '%'
        · rw [if_pos hany, if_pos (by simpa [likeAny] using hany)]
          exact ih ⟨s.ti, s.pi + 1, some (s.pi, s.ti)⟩
        rw [if_neg hany, if_neg (by simpa [likeAny] using hany)]
        cases s.back with
        | none => rfl
        | some b => exact ih ⟨b.2 + 1, b.1 + 1, some (b.1, b.2 + 1)⟩

/-- A text is made of pieces that the elements of a pattern stand for. -/
def LikeMatches (t p : List Char) : Prop := Wildcard.Matches likeAny likeFits t p

/-- What an element of a pattern stands for: any run of characters, any one, or itself. -/
theorem fits_like_iff (x : Char) (w : List Char) : Wildcard.Fits likeAny likeFits x w ↔
    if x = '%' then True else if x = '_' then w.length = 1 else w = [x] := by
  rw [Wildcard.Fits]
  split_ifs with hany hone
  · simp [likeAny, hany]
  · subst hone
    rw [List.length_eq_one_iff]
    simp [likeAny, likeFits]
  · simp [likeAny, likeFits, hany, hone]

theorem likeMatches_spec [Unicode] (text pattern : String) (ci : Bool) :
    likeRun (likeFold ci text) (likeFold ci pattern) = some (likeMatches text pattern ci) ∧
      (likeMatches text pattern ci = true ↔
        LikeMatches (likeFold ci text) (likeFold ci pattern)) := by
  obtain ⟨answer, hrun, hans⟩ := Wildcard.run_start likeFits_not_any (likeFold ci text)
    (likeFold ci pattern)
  have hloop : likeMatches text pattern ci = answer := by
    rw [likeMatches, likeLoop_eq_run _ _ _ ⟨0, 0, none⟩, hrun]
    rfl
  rw [hloop, likeRun, hrun]
  exact ⟨rfl, hans⟩

/-! ## Prefixes -/

theorem utf8_eq_bytes (s : String) : s.utf8 = Utf8.bytes s.toList := String.utf8_eq_flatMap s

/-- Text that is matched by elements that stand for themselves, then anything. -/
theorem likeMatches_prefix {t p : List Char} (hp : ∀ x ∈ p, x ≠ '%' ∧ x ≠ '_') :
    LikeMatches t (p ++ ['%']) ↔ p <+: t := by
  rw [LikeMatches]
  induction p generalizing t with
  | nil =>
    rw [List.nil_append, Wildcard.matches_star rfl]
    refine iff_of_true ⟨t.length, le_rfl, ?_⟩ List.nil_prefix
    rw [List.drop_length, Wildcard.matches_nil]
  | cons x p ih =>
    obtain ⟨hany, hone⟩ := hp x List.mem_cons_self
    have hstar : likeAny x = false := by simpa [likeAny] using hany
    rw [List.cons_append, Wildcard.matches_one hstar]
    have ih := fun t ↦ @ih t fun y hy ↦ hp y (List.mem_cons_of_mem x hy)
    constructor
    · rintro ⟨c, u, rfl, hfits, h⟩
      obtain rfl : x = c := by simpa [likeFits, hany, hone] using hfits
      exact (List.prefix_cons_inj x).mpr ((ih u).mp h)
    · rintro ⟨r, rfl⟩
      refine ⟨x, p ++ r, rfl, by simp [likeFits, hany], (ih _).mpr (List.prefix_append p r)⟩

/-- What a plain prefix is. -/
theorem plainPrefix_eq_some {pattern p : String} (h : plainPrefix pattern = some p) :
    pattern.toList = p.toList ++ ['%'] ∧ ∀ x ∈ p.toList, x ≠ '%' ∧ x ≠ '_' := by
  rw [plainPrefix] at h
  dsimp only at h
  split_ifs at h with hlast hwild
  obtain rfl := Option.some.inj h
  rw [String.toList_ofList]
  refine ⟨?_, fun x hx ↦ ?_⟩
  · exact (List.dropLast_append_getLast? _ hlast).symm
  · have hx := List.any_eq_false.mp (Bool.eq_false_iff.mpr hwild) x hx
    simpa using hx

/-- **A test for a prefix and the pattern say the same.** -/
theorem eval_likeExpr [Unicode] (schema : TableSchema) (row : Row) (path pattern : String)
    (ci : Bool) :
    (likeExpr path pattern ci).eval schema row = (Expr.like path pattern ci).eval schema row := by
  rw [likeExpr]
  cases hplain : plainPrefix pattern with
  | none => rfl
  | some p =>
    cases ci
    · obtain ⟨hpattern, hp⟩ := plainPrefix_eq_some hplain
      simp only [Bool.false_eq_true, if_false, Expr.eval]
      split
      case h_1 s hs =>
        rw [Bool.eq_iff_iff, List.isPrefixOf_iff_prefix, utf8_eq_bytes, utf8_eq_bytes,
          Utf8.bytes_prefix_iff, (likeMatches_spec s pattern false).2]
        simp only [likeFold, Bool.false_eq_true, if_false]
        rw [hpattern, likeMatches_prefix hp]
      case h_2 => rfl
    · rfl

/-- The direct binding of a `LIKE` condition: the pattern as it is. -/
def bindLike (params : Params) (path : String) (pattern : Operand) (ci negated : Bool) :
    Except BknError Expr := do
  return (Expr.like path (← likePattern params path pattern) ci).negate negated

theorem eval_negate [Unicode] (schema : TableSchema) (row : Row) (negated : Bool) (e : Expr) :
    (e.negate negated).eval schema row = (negated ^^ e.eval schema row) := by
  cases negated
  · rw [Bool.false_xor]
    rfl
  · rw [Bool.true_xor]
    exact Expr.eval.eq_def ..

/-- **`LIKE` matching**: the loop ends, a text matches exactly when it can be cut to the pattern, and
the expression a condition is bound to says the same as its pattern. -/
theorem like_spec [Unicode] (text pattern : String) (ci : Bool) (schema : TableSchema) (row : Row)
    (params : Params) (path : String) (operand : Operand) (negated : Bool) :
    likeRun (likeFold ci text) (likeFold ci pattern) = some (likeMatches text pattern ci) ∧
      (likeMatches text pattern ci = true ↔
        ∃ pieces : List (List Char), pieces.flatten = likeFold ci text ∧
          List.Forall₂ (fun x w ↦ if x = '%' then True else if x = '_' then w.length = 1 else w = [x])
            (likeFold ci pattern) pieces) ∧
      (bindExpr params (.like path operand ci negated)).map (·.eval schema row) =
        (bindLike params path operand ci negated).map (·.eval schema row) := by
  obtain ⟨hrun, hmatch⟩ := likeMatches_spec text pattern ci
  refine ⟨hrun, ?_, ?_⟩
  · have hfits : Wildcard.Fits likeAny likeFits = fun x w ↦
        if x = '%' then True else if x = '_' then w.length = 1 else w = [x] :=
      funext fun x ↦ funext fun w ↦ propext (fits_like_iff x w)
    rw [hmatch, LikeMatches, Wildcard.Matches, hfits]
  · rw [bindExpr, bindLike]
    cases likePattern params path operand with
    | error e => rfl
    | ok s =>
      change Except.ok (Expr.eval schema row _) = Except.ok (Expr.eval schema row _)
      rw [eval_negate, eval_negate, eval_likeExpr]
