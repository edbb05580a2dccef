import Bkndb.Basic.Except
import Mathlib.Logic.Function.Basic

/-!
# Computations with a state and errors

A computation takes a state and ends in a value or an error. What was done to the state before an
error was raised stays done.

## Why not a transformer

`Effect S ε α` is a function into a result and a state, not `StateT` over `Except`: a method that
fails in the source has already changed its receiver, and the properties about failures are about
exactly those changes. Rolling back is something a caller does, by keeping an old state.

## Outcomes

Where a computation is run inside a transaction, what it leaves behind when it fails is dropped
with the transaction. `outcome` forgets that part of the state, and the laws below push it through
sequences and loops, so that a computation and its pure model can be compared by rewriting.
-/

/-- A computation on states `S` with errors `ε`. -/
def Effect (S ε α : Type) := S → Except ε α × S

namespace Effect

variable {S T ε α β : Type}

/-- Go on with the value; stop at an error. -/
def bind (x : Effect S ε α) (f : α → Effect S ε β) : Effect S ε β := fun s ↦
  match x s with
  | (.ok a, s') => f a s'
  | (.error e, s') => (.error e, s')

instance : Monad (Effect S ε) where
  pure a := fun s ↦ (.ok a, s)
  bind := bind

/-- Raise an error. -/
def throw (e : ε) : Effect S ε α := fun s ↦ (.error e, s)

/-- Look at the state. -/
def get : Effect S ε S := fun s ↦ (.ok s, s)

/-- Change the state. -/
def modify (f : S → S) : Effect S ε Unit := fun s ↦ (.ok (), f s)

/-- A pure computation that may fail. -/
def ofExcept (x : Except ε α) : Effect S ε α := fun s ↦ (x, s)

/-- Run a computation and, if it fails, a second one whose own outcome is dropped. -/
def onError (x : Effect S ε α) (cleanup : Effect S ε Unit) : Effect S ε α := fun s ↦
  match x s with
  | (.ok a, s') => (.ok a, s')
  | (.error e, s') => (.error e, (cleanup s').2)

/-- Run a computation for its effect only. -/
def ignore (x : Effect S ε α) : Effect S ε Unit := fun s ↦ (.ok (), (x s).2)

/-- A computation on one part of the state. -/
def zoom (part : T → S) (put : T → S → T) (x : Effect S ε α) : Effect T ε α := fun t ↦
  ((x (part t)).1, put t (x (part t)).2)

@[simp] theorem pure_apply (a : α) (s : S) : (pure a : Effect S ε α) s = (.ok a, s) := rfl

@[simp] theorem throw_apply (e : ε) (s : S) : (throw e : Effect S ε α) s = (.error e, s) := rfl

@[simp] theorem get_apply (s : S) : (get : Effect S ε S) s = (.ok s, s) := rfl

@[simp] theorem modify_apply (f : S → S) (s : S) : (modify f : Effect S ε Unit) s = (.ok (), f s) :=
  rfl

@[simp] theorem ofExcept_apply (x : Except ε α) (s : S) : (ofExcept x : Effect S ε α) s = (x, s) :=
  rfl

theorem bind_apply_of_ok {x : Effect S ε α} {f : α → Effect S ε β} {s s' : S} {a : α}
    (h : x s = (.ok a, s')) : (x >>= f) s = f a s' := by
  change bind x f s = _
  rw [bind, h]

theorem bind_apply_of_error {x : Effect S ε α} {f : α → Effect S ε β} {s s' : S} {e : ε}
    (h : x s = (.error e, s')) : (x >>= f) s = (.error e, s') := by
  change bind x f s = _
  rw [bind, h]

/-- A sequence succeeds if both parts do. -/
theorem bind_eq_ok {x : Effect S ε α} {f : α → Effect S ε β} {s s' : S} {b : β} :
    (x >>= f) s = (.ok b, s') ↔ ∃ a s₁, x s = (.ok a, s₁) ∧ f a s₁ = (.ok b, s') := by
  rcases hx : x s with ⟨e | a, s₁⟩
  · rw [bind_apply_of_error hx]
    simp
  · rw [bind_apply_of_ok hx]
    constructor
    · exact fun h ↦ ⟨a, s₁, rfl, h⟩
    · rintro ⟨a', s₂, h, hf⟩
      cases h
      exact hf

/-- A computation on a part succeeds if it does on that part alone. -/
theorem zoom_eq_ok {part : T → S} {put : T → S → T} {x : Effect S ε α} {t t' : T} {a : α} :
    zoom part put x t = (.ok a, t') ↔ ∃ s, x (part t) = (.ok a, s) ∧ t' = put t s := by
  rcases hx : x (part t) with ⟨r, s⟩
  simp only [zoom, hx, Prod.mk.injEq]
  constructor
  · rintro ⟨rfl, rfl⟩
    exact ⟨s, ⟨rfl, rfl⟩, rfl⟩
  · rintro ⟨s', ⟨rfl, rfl⟩, rfl⟩
    exact ⟨rfl, rfl⟩

theorem onError_eq_ok {x : Effect S ε α} {cleanup : Effect S ε Unit} {s s' : S} {a : α} :
    onError x cleanup s = (.ok a, s') ↔ x s = (.ok a, s') := by
  rcases hx : x s with ⟨e | a', s₁⟩
  · simp [onError, hx]
  · simp [onError, hx]

/-- The laws by which sequences are rearranged. -/
instance : LawfulMonad (Effect S ε) := LawfulMonad.mk' _
  (by intro α x; funext s; change bind x _ s = x s; rw [bind]; rcases x s with ⟨e | a, s'⟩ <;> rfl)
  (by intros; rfl)
  (by
    intro α β γ x f g
    funext s
    change bind (bind x f) g s = bind x (fun a ↦ bind (f a) g) s
    simp only [bind]
    rcases x s with ⟨e | a, s'⟩ <;> rfl)

@[simp] theorem ofExcept_eq_ok {x : Except ε α} {s s' : S} {a : α} :
    ofExcept x s = (.ok a, s') ↔ x = .ok a ∧ s' = s := by
  rw [ofExcept_apply, Prod.mk.injEq, eq_comm (a := s)]

/-- A sequence fails where its first part fails, or where its second part does. -/
theorem bind_eq_error {x : Effect S ε α} {f : α → Effect S ε β} {s s' : S} {e : ε} :
    (x >>= f) s = (.error e, s') ↔
      x s = (.error e, s') ∨ ∃ a s₁, x s = (.ok a, s₁) ∧ f a s₁ = (.error e, s') := by
  rcases hx : x s with ⟨e' | a, s₁⟩
  · rw [bind_apply_of_error hx]
    simp
  · rw [bind_apply_of_ok hx]
    constructor
    · exact fun h ↦ .inr ⟨a, s₁, rfl, h⟩
    · rintro (h | ⟨a', s₂, h, hf⟩)
      · cases h
      · cases h
        exact hf

@[simp] theorem ofExcept_eq_error {x : Except ε α} {s s' : S} {e : ε} :
    ofExcept x s = (.error e, s') ↔ x = .error e ∧ s' = s := by
  rw [ofExcept_apply, Prod.mk.injEq, eq_comm (a := s)]

/-- A sequence that starts with a pure computation fails in it, with the state unchanged, or after
it. -/
theorem ofExcept_bind_eq_error {x : Except ε α} {f : α → Effect S ε β} {s s' : S} {e : ε} :
    (ofExcept x >>= f) s = (.error e, s') ↔
      (x = .error e ∧ s' = s) ∨ ∃ a, x = .ok a ∧ f a s = (.error e, s') := by
  rw [bind_eq_error, ofExcept_eq_error]
  refine or_congr_right ⟨?_, ?_⟩
  · rintro ⟨a, s₁, hx, h⟩
    obtain ⟨ha, rfl⟩ := ofExcept_eq_ok.mp hx
    exact ⟨a, ha, h⟩
  · rintro ⟨a, ha, h⟩
    exact ⟨a, s, ofExcept_eq_ok.mpr ⟨ha, rfl⟩, h⟩

/-! ## Steps that fail before they change anything -/

/-- A step that leaves the state alone when it fails. -/
def lift (f : S → Except ε (α × S)) : Effect S ε α := fun s ↦
  match f s with
  | .ok (a, s') => (.ok a, s')
  | .error e => (.error e, s)

@[simp] theorem lift_eq_ok {f : S → Except ε (α × S)} {s s' : S} {a : α} :
    lift f s = (.ok a, s') ↔ f s = .ok (a, s') := by
  rw [lift]
  rcases f s with e | ⟨b, t⟩ <;> simp

@[simp] theorem lift_eq_error {f : S → Except ε (α × S)} {s s' : S} {e : ε} :
    lift f s = (.error e, s') ↔ f s = .error e ∧ s' = s := by
  rw [lift]
  rcases f s with e' | ⟨b, t⟩ <;> simp [eq_comm]

/-- A step without a value. -/
def step (f : S → Except ε S) : Effect S ε Unit := lift fun s ↦ (f s).map (Prod.mk ())

/-- A computation on a part that may not be there. When it succeeds the part is saved; when it fails
what it did to the part is left in some other way. -/
def onPart (part : T → Except ε S) (save : S → T → T) (abandon : S → S → T → T)
    (x : Effect S ε Unit) : Effect T ε Unit := fun t ↦
  match part t with
  | .error e => (.error e, t)
  | .ok s =>
    match x s with
    | (.ok (), s') => (.ok (), save s' t)
    | (.error e, s') => (.error e, abandon s s' t)

/-- How a computation ends, without the state that it leaves behind when it fails. -/
def outcome (x : Effect S ε α) (s : S) : Except ε (α × S) :=
  match x s with
  | (.ok a, s') => .ok (a, s')
  | (.error e, _) => .error e

theorem outcome_of_error {x : Effect S ε α} {s s' : S} {e : ε} (h : x s = (.error e, s')) :
    x.outcome s = .error e := by
  rw [outcome, h]

@[simp] theorem outcome_pure (a : α) (s : S) : (pure a : Effect S ε α).outcome s = .ok (a, s) := rfl

@[simp] theorem outcome_get (s : S) : (get : Effect S ε S).outcome s = .ok (s, s) := rfl

@[simp] theorem outcome_modify (f : S → S) (s : S) :
    (modify f : Effect S ε Unit).outcome s = .ok ((), f s) := rfl

@[simp] theorem outcome_lift (f : S → Except ε (α × S)) (s : S) : (lift f).outcome s = f s := by
  rw [outcome, lift]
  rcases f s with e | ⟨a, s'⟩ <;> rfl

@[simp] theorem outcome_step (f : S → Except ε S) (s : S) :
    (step f).outcome s = (f s).map (Prod.mk ()) :=
  outcome_lift _ s

@[simp] theorem outcome_ofExcept (x : Except ε α) (s : S) :
    (ofExcept x : Effect S ε α).outcome s = x.map (·, s) := by
  cases x <;> rfl

theorem outcome_onPart (part : T → Except ε S) (save : S → T → T) (abandon : S → S → T → T)
    (x : Effect S ε Unit) (t : T) : (onPart part save abandon x).outcome t =
      part t >>= fun s ↦ (x.outcome s).map fun p ↦ ((), save p.2 t) := by
  rw [outcome, onPart]
  cases part t with
  | error e => rfl
  | ok s =>
    rw [Except.ok_bind, outcome]
    dsimp only
    rcases x s with ⟨e | ⟨⟩, s'⟩ <;> rfl

/-- The outcome of a sequence is the sequence of the outcomes. -/
theorem outcome_bind (x : Effect S ε α) (f : α → Effect S ε β) (s : S) :
    (x >>= f).outcome s = x.outcome s >>= fun p ↦ (f p.1).outcome p.2 := by
  rcases h : x s with ⟨e | a, s'⟩
  · rw [outcome, bind_apply_of_error h, outcome, h]
    rfl
  · rw [outcome, bind_apply_of_ok h, outcome, h]
    rfl

/-- The outcome of a loop is the loop of the outcomes. -/
theorem outcome_forM {x : α → Effect S ε Unit} {f : S → α → Except ε S}
    (h : ∀ a s, (x a).outcome s = (f s a).map (Prod.mk ())) (l : List α) (s : S) :
    (l.forM x : Effect S ε Unit).outcome s = (l.foldlM f s).map (Prod.mk ()) := by
  induction l generalizing s with
  | nil => rfl
  | cons a l ih =>
    have hcons : ((a :: l).forM x : Effect S ε Unit) = x a >>= fun _ ↦ l.forM x := rfl
    rw [hcons, outcome_bind, h, List.foldlM_cons]
    cases f s a with
    | error e => rfl
    | ok s' => exact ih s'

/-! ## What a computation can do to the state -/

/-- However it ends, the state before and the state after are related. -/
def Steps (R : S → S → Prop) (x : Effect S ε α) : Prop := ∀ s, R s (x s).2

section

variable {R : S → S → Prop}

theorem steps_pure (hrefl : ∀ s, R s s) (a : α) : Steps R (pure a : Effect S ε α) := fun s ↦ hrefl s

theorem steps_throw (hrefl : ∀ s, R s s) (e : ε) : Steps R (throw e : Effect S ε α) := fun s ↦ hrefl s

theorem steps_get (hrefl : ∀ s, R s s) : Steps R (get : Effect S ε S) := fun s ↦ hrefl s

theorem steps_ofExcept (hrefl : ∀ s, R s s) (x : Except ε α) : Steps R (ofExcept x : Effect S ε α) :=
  fun s ↦ hrefl s

theorem Steps.bind (htrans : ∀ s₁ s₂ s₃, R s₁ s₂ → R s₂ s₃ → R s₁ s₃) {x : Effect S ε α}
    {f : α → Effect S ε β} (hx : Steps R x) (hf : ∀ a, Steps R (f a)) : Steps R (x >>= f) := by
  intro s
  have hfirst := hx s
  rcases h : x s with ⟨e | a, s₁⟩
  · rw [bind_apply_of_error h]
    rw [h] at hfirst
    exact hfirst
  · rw [bind_apply_of_ok h]
    rw [h] at hfirst
    exact htrans _ _ _ hfirst (hf a s₁)

theorem Steps.ignore {x : Effect S ε α} (hx : Steps R x) : Steps R (ignore x) := hx

end

end Effect
