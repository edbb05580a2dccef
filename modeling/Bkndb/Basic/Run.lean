import Mathlib.Logic.Function.Basic

/-!
# Runs of a step function

A system is a partial function from a state and an action to the next state; an action that is not
enabled has none. A run is a list of actions taken one after the other. Safety results have two
parts: what a single step preserves, and a condition that each step of the run meets in the state
in which it is taken.

A condition on the steps is not a condition on the run as a whole: it is asked of the action and
the state before it, so it can be checked while the run goes on, and a step that breaks it can be
named. Results of this kind read "in every run whose steps all meet the condition".
-/

namespace Run

variable {S A : Type*}

/-- The state after the actions, if each of them is enabled in turn. -/
def run (step : S → A → Option S) : S → List A → Option S
  | s, [] => some s
  | s, a :: as => (step s a).bind fun s' ↦ run step s' as

/-- Each action meets the condition in the state in which it is taken. -/
def EachStep (step : S → A → Option S) (cond : S → A → Prop) : S → List A → Prop
  | _, [] => True
  | s, a :: as => cond s a ∧ ∀ s', step s a = some s' → EachStep step cond s' as

instance decidableEachStep (step : S → A → Option S) (cond : S → A → Prop)
    [∀ s a, Decidable (cond s a)] : ∀ s as, Decidable (EachStep step cond s as)
  | _, [] => .isTrue trivial
  | s, a :: as =>
    match h : step s a with
    | none => decidable_of_iff (cond s a) (by simp [EachStep, h])
    | some s' =>
      have := decidableEachStep step cond s' as
      decidable_of_iff (cond s a ∧ EachStep step cond s' as) (by simp [EachStep, h])

variable {step : S → A → Option S} {cond : S → A → Prop}

theorem EachStep.and {cond' : S → A → Prop} {s : S} {as : List A} (h : EachStep step cond s as)
    (h' : EachStep step cond' s as) : EachStep step (fun s a ↦ cond s a ∧ cond' s a) s as := by
  induction as generalizing s with
  | nil => trivial
  | cons a as ih => exact ⟨⟨h.1, h'.1⟩, fun s₁ hs₁ ↦ ih (h.2 s₁ hs₁) (h'.2 s₁ hs₁)⟩

theorem EachStep.mono {cond' : S → A → Prop} (h : ∀ s a, cond s a → cond' s a) {s : S} {as : List A}
    (hcond : EachStep step cond s as) : EachStep step cond' s as := by
  induction as generalizing s with
  | nil => trivial
  | cons a as ih => exact ⟨h s a hcond.1, fun s₁ hs₁ ↦ ih (hcond.2 s₁ hs₁)⟩

theorem run_append (step : S → A → Option S) (s : S) (as bs : List A) :
    run step s (as ++ bs) = (run step s as).bind fun s' ↦ run step s' bs := by
  induction as generalizing s with
  | nil => rfl
  | cons a as ih =>
    rw [List.cons_append, run, run, Option.bind_assoc]
    exact congrArg _ (funext ih)

/-- Where nothing is asked of a step, every run is admitted. -/
theorem eachStep_true (step : S → A → Option S) (s : S) (as : List A) :
    EachStep step (fun _ _ ↦ True) s as := by
  induction as generalizing s with
  | nil => trivial
  | cons a as ih => exact ⟨trivial, fun s₁ _ ↦ ih s₁⟩

/-- **Invariant rule.** A property that every admitted step preserves holds wherever an admitted run
ends. -/
theorem invariant {Inv : S → Prop}
    (hstep : ∀ s a s', Inv s → cond s a → step s a = some s' → Inv s') {s : S} (hinit : Inv s)
    {as : List A} (hcond : EachStep step cond s as) {s' : S} (h : run step s as = some s') :
    Inv s' := by
  induction as generalizing s with
  | nil =>
    obtain rfl := Option.some.inj h
    exact hinit
  | cons a as ih =>
    obtain ⟨s₁, hs₁, h⟩ := Option.bind_eq_some_iff.mp h
    exact ih (hstep s a s₁ hinit hcond.1 hs₁) (hcond.2 s₁ hs₁) h

end Run
