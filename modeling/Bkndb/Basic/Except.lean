import Mathlib.Data.List.Forall2

/-!
# Computations that may fail

Inversion of a successful computation, and the induction rules for loops in `Except`: a `foldlM`
that succeeds has performed each of its steps successfully, so a property of the state that
every step keeps holds at the end.

## Rules for loops

A loop of the source is a `foldlM`, a `mapM` or a `forM` over a list. The rules come in three
strengths: an invariant of the state alone (`foldlM_invariant`), one that sees the elements already
processed (`foldlM_induction`), and one that shows that the loop succeeds as well
(`foldlM_exists`). They are stated about any error type, and the proofs about the program use no
induction over its loops but these.

## Errors as values

`Raises P x` says that every error `x` can end in satisfies `P`. It is closed under the same
combinators, so that a property of the errors of a long function follows from its parts without
looking at what the parts return.
-/

universe u

namespace Except

variable {ε : Type*} {α β σ : Type u}

theorem ok_ne_error (a : α) (e : ε) : (.ok a : Except ε α) ≠ .error e := by
  rintro ⟨⟩

theorem bind_eq_ok {x : Except ε α} {f : α → Except ε β} {b : β} :
    x >>= f = .ok b ↔ ∃ a, x = .ok a ∧ f a = .ok b := by
  cases x with
  | error e => simp [bind, Except.bind]
  | ok a => simp [bind, Except.bind]

theorem bind_eq_error {x : Except ε α} {f : α → Except ε β} {e : ε} :
    x >>= f = .error e ↔ x = .error e ∨ ∃ a, x = .ok a ∧ f a = .error e := by
  cases x with
  | error e => simp [bind, Except.bind]
  | ok a => simp [bind, Except.bind]

@[simp] theorem ok_bind (a : α) (f : α → Except ε β) : (.ok a : Except ε α) >>= f = f a := rfl

@[simp] theorem error_bind (e : ε) (f : α → Except ε β) :
    (.error e : Except ε α) >>= f = .error e := rfl

theorem map_eq_ok {x : Except ε α} {f : α → β} {b : β} :
    f <$> x = .ok b ↔ ∃ a, x = .ok a ∧ f a = b := by
  cases x with
  | error e => simp [Functor.map, Except.map]
  | ok a => simp [Functor.map, Except.map]

theorem map_bind {γ : Type u} (x : Except ε α) (f : α → Except ε β) (g : β → γ) :
    (x >>= f).map g = x >>= fun a ↦ (f a).map g := by
  cases x <;> rfl

theorem bind_map {γ : Type u} (x : Except ε α) (f : α → β) (g : β → Except ε γ) :
    x.map f >>= g = x >>= fun a ↦ g (f a) := by
  cases x <;> rfl

/-- Where nothing has failed, the list is one of results. -/
theorem eq_map_ok {l : List (Except ε α)} {as : List α} (h : l.map Except.toOption = as.map some) :
    l = as.map .ok := by
  induction l generalizing as with
  | nil =>
    cases as with
    | nil => rfl
    | cons a as => cases h
  | cons x l ih =>
    cases as with
    | nil => cases h
    | cons a as =>
      obtain ⟨hx, hl⟩ := List.cons.inj h
      rw [List.map_cons, ih hl]
      cases x with
      | error e => simp [Except.toOption] at hx
      | ok b =>
        have hb : b = a := by simpa [Except.toOption] using hx
        rw [hb]

theorem any_toOption {x : Except ε α} {p : α → Bool} :
    x.toOption.any p = true ↔ ∃ a, x = .ok a ∧ p a = true := by
  cases x <;> simp [Except.toOption]

/-- Fail with `e` unless a value is there. -/
def ofOption (e : ε) : Option α → Except ε α
  | some a => .ok a
  | none => .error e

@[simp] theorem ofOption_eq_ok {e : ε} {o : Option α} {a : α} :
    ofOption e o = .ok a ↔ o = some a := by
  cases o <;> simp [ofOption]

/-- Fail with `e` unless a condition holds. -/
def guardOr (c : Prop) [Decidable c] (e : ε) : Except ε Unit := if c then .ok () else .error e

@[simp] theorem guardOr_eq_ok {c : Prop} [Decidable c] {e : ε} {u : Unit} :
    guardOr c e = .ok u ↔ c := by
  rw [guardOr]
  split <;> simp_all

/-! ## Loops -/

/-- The loop rule, for a loop over the images of a list: what was processed of that list is visible
to the invariant. -/
theorem foldlM_forall₂ {R : β → α → Prop} {f : σ → α → Except ε σ} (P : List β → σ → Prop)
    {l : List β} {r : List α} {s t : σ} (hR : List.Forall₂ R l r) (h : r.foldlM f s = .ok t)
    (h0 : P [] s) (hstep : ∀ done a b s s', done ++ [b] <+: l → R b a → P done s →
      f s a = .ok s' → P (done ++ [b]) s') : P l t := by
  -- induction on what is left, with `done` in front of it
  suffices H : ∀ (todo : List β) (r : List α) (done : List β) (s : σ), List.Forall₂ R todo r →
      done ++ todo = l → P done s → r.foldlM f s = .ok t → P l t from H l r [] s hR rfl h0 h
  intro todo
  induction todo with
  | nil =>
    intro r done s hR hl hP hf
    obtain rfl := List.forall₂_nil_left_iff.mp hR
    have hst : s = t := by simpa [pure, Except.pure] using hf
    rw [← hl, List.append_nil, ← hst]
    exact hP
  | cons b todo ih =>
    intro r done s hR hl hP hf
    obtain ⟨a, r', hab, hR', rfl⟩ := List.forall₂_cons_left_iff.mp hR
    rw [List.foldlM_cons, bind_eq_ok] at hf
    obtain ⟨s', hs', hf'⟩ := hf
    have hl' : done ++ [b] ++ todo = l := by rw [← hl, List.append_assoc, List.singleton_append]
    exact ih r' (done ++ [b]) s' hR' hl' (hstep done a b s s' ⟨todo, hl'⟩ hab hP hs') hf'

/-- The loop rule, with the elements already processed visible to the invariant. -/
theorem foldlM_induction {f : σ → α → Except ε σ} (P : List α → σ → Prop) {l : List α} {s t : σ}
    (h : l.foldlM f s = .ok t) (h0 : P [] s)
    (hstep : ∀ done a s s', done ++ [a] <+: l → P done s → f s a = .ok s' → P (done ++ [a]) s') :
    P l t := by
  refine foldlM_forall₂ (R := Eq) P (List.forall₂_eq_eq_eq ▸ rfl) h h0 ?_
  intro done a b s s' hpre hab hP hs
  subst hab
  exact hstep done b s s' hpre hP hs

/-- The loop rule for an invariant of the state alone. -/
theorem foldlM_invariant {f : σ → α → Except ε σ} (P : σ → Prop) {l : List α} {s t : σ}
    (h : l.foldlM f s = .ok t) (h0 : P s)
    (hstep : ∀ a ∈ l, ∀ s s', P s → f s a = .ok s' → P s') : P t := by
  refine foldlM_induction (fun _ ↦ P) h h0 fun done a s s' hpre hP hs ↦ ?_
  exact hstep a (hpre.subset (by simp)) s s' hP hs

/-- The loop rule for total correctness: a loop whose steps all succeed under the invariant
succeeds. -/
theorem foldlM_exists {f : σ → α → Except ε σ} (P : List α → σ → Prop) {l : List α} {s : σ}
    (h0 : P [] s)
    (hstep : ∀ done a s, done ++ [a] <+: l → P done s → ∃ s', f s a = .ok s' ∧ P (done ++ [a]) s') :
    ∃ t, l.foldlM f s = .ok t ∧ P l t := by
  -- induction on what is left, with `done` in front of it
  suffices H : ∀ (todo done : List α) (s : σ), done ++ todo = l → P done s →
      ∃ t, todo.foldlM f s = .ok t ∧ P l t from H l [] s rfl h0
  intro todo
  induction todo with
  | nil =>
    intro done s hl hP
    rw [List.append_nil] at hl
    exact ⟨s, rfl, hl ▸ hP⟩
  | cons a todo ih =>
    intro done s hl hP
    have hl' : done ++ [a] ++ todo = l := by rw [← hl, List.append_assoc, List.singleton_append]
    obtain ⟨s', hs', hP'⟩ := hstep done a s ⟨todo, hl'⟩ hP
    obtain ⟨t, ht, hPt⟩ := ih (done ++ [a]) s' hl' hP'
    refine ⟨t, ?_, hPt⟩
    rw [List.foldlM_cons, hs', ok_bind, ht]

/-- A loop whose steps all succeed under an invariant of the state alone. -/
theorem foldlM_isOk {f : σ → α → Except ε σ} (P : σ → Prop) {l : List α} {s : σ} (h0 : P s)
    (hstep : ∀ a ∈ l, ∀ s, P s → ∃ s', f s a = .ok s' ∧ P s') :
    ∃ t, l.foldlM f s = .ok t ∧ P t :=
  foldlM_exists (fun _ ↦ P) h0 fun _ a s hpre hP ↦ hstep a (hpre.subset (by simp)) s hP

theorem foldlM_append {f : α → List β} {g : List β → α → Except ε (List β)} {l : List α}
    (h : ∀ a ∈ l, ∀ acc, g acc a = .ok (acc ++ f a)) (acc : List β) :
    l.foldlM g acc = .ok (acc ++ l.flatMap f) := by
  induction l generalizing acc with
  | nil => simp; rfl
  | cons a l ih =>
    rw [List.foldlM_cons, h a List.mem_cons_self, ok_bind,
      ih fun b hb ↦ h b (List.mem_cons_of_mem _ hb), List.flatMap_cons, List.append_assoc]

/-- A loop over a view of the state, when the view of each step is the step of the view. -/
theorem foldlM_map {τ : Type u} {f : σ → α → Except ε σ} {f' : τ → α → Except ε τ} (view : σ → τ)
    (h : ∀ s a, f' (view s) a = (f s a).map view) (l : List α) (s : σ) :
    l.foldlM f' (view s) = (l.foldlM f s).map view := by
  induction l generalizing s with
  | nil => rfl
  | cons a l ih =>
    rw [List.foldlM_cons, List.foldlM_cons, h]
    cases f s a with
    | error e => rfl
    | ok t => exact ih t

/-- A loop that fails does so at one of its elements, after the ones before it. -/
theorem foldlM_eq_error {f : σ → α → Except ε σ} {l : List α} {s : σ} {e : ε}
    (h : l.foldlM f s = .error e) :
    ∃ done a rest t, l = done ++ a :: rest ∧ done.foldlM f s = .ok t ∧ f t a = .error e := by
  induction l generalizing s with
  | nil => cases h
  | cons a l ih =>
    rw [List.foldlM_cons, bind_eq_error] at h
    rcases h with ha | ⟨s', hs', hl⟩
    · exact ⟨[], a, l, s, rfl, rfl, ha⟩
    · obtain ⟨done, b, rest, t, rfl, hdone, hb⟩ := ih hl
      refine ⟨a :: done, b, rest, t, rfl, ?_, hb⟩
      rw [List.foldlM_cons, hs', ok_bind, hdone]

theorem mapM_eq_ok_iff {f : α → Except ε β} {l : List α} {r : List β} :
    l.mapM f = .ok r ↔ List.Forall₂ (fun a b ↦ f a = .ok b) l r := by
  induction l generalizing r with
  | nil =>
    rw [List.mapM_nil, List.forall₂_nil_left_iff]
    exact ⟨fun h ↦ by simpa [pure, Except.pure] using h.symm, fun h ↦ h ▸ rfl⟩
  | cons a l ih =>
    rw [List.mapM_cons, bind_eq_ok, List.forall₂_cons_left_iff]
    constructor
    · rintro ⟨b, hb, hrest⟩
      rw [bind_eq_ok] at hrest
      obtain ⟨r', hr', hr⟩ := hrest
      exact ⟨b, r', hb, ih.mp hr', by simpa [pure, Except.pure] using hr.symm⟩
    · rintro ⟨b, r', hb, hr', rfl⟩
      refine ⟨b, hb, ?_⟩
      rw [ih.mpr hr']
      rfl

theorem mapM_exists {Q : α → β → Prop} {f : α → Except ε β} {l : List α}
    (h : ∀ a ∈ l, ∃ b, f a = .ok b ∧ Q a b) : ∃ r, l.mapM f = .ok r ∧ List.Forall₂ Q l r := by
  induction l with
  | nil => exact ⟨[], rfl, .nil⟩
  | cons a l ih =>
    obtain ⟨b, hb, hQ⟩ := h a List.mem_cons_self
    obtain ⟨r, hr, hR⟩ := ih fun a' ha' ↦ h a' (List.mem_cons_of_mem _ ha')
    refine ⟨b :: r, ?_, .cons hQ hR⟩
    rw [List.mapM_cons, hb, ok_bind, hr]
    rfl

/-- A traversal whose failing steps all fail alike: it fails iff one of them does. -/
theorem mapM_cases {P : α → Prop} {Q : α → β → Prop} {f : α → Except ε β} {e : ε} {l : List α}
    (herror : ∀ a ∈ l, P a → f a = .error e)
    (hok : ∀ a ∈ l, ¬ P a → ∃ b, f a = .ok b ∧ Q a b) :
    ((∃ a ∈ l, P a) → l.mapM f = .error e) ∧
      ((∀ a ∈ l, ¬ P a) → ∃ r, l.mapM f = .ok r ∧ List.Forall₂ Q l r) := by
  refine ⟨?_, fun hall ↦ mapM_exists fun a ha ↦ hok a ha (hall a ha)⟩
  induction l with
  | nil => exact fun ⟨a, ha, _⟩ ↦ absurd ha List.not_mem_nil
  | cons a l ih =>
    rintro ⟨b, hb, hP⟩
    rw [List.mapM_cons]
    by_cases ha : P a
    · rw [herror a List.mem_cons_self ha, error_bind]
    · have hb' : b ∈ l := (List.mem_cons.mp hb).resolve_left fun heq ↦ ha (heq ▸ hP)
      obtain ⟨c, hc, -⟩ := hok a List.mem_cons_self ha
      rw [hc, ok_bind, ih (fun x hx ↦ herror x (List.mem_cons_of_mem a hx))
        (fun x hx ↦ hok x (List.mem_cons_of_mem a hx)) ⟨b, hb', hP⟩, error_bind]

theorem mapM_congr {f f' : α → Except ε β} {l : List α} (h : ∀ a ∈ l, f a = f' a) :
    l.mapM f = l.mapM f' := by
  induction l with
  | nil => rfl
  | cons a l ih =>
    rw [List.mapM_cons, List.mapM_cons, h a List.mem_cons_self,
      ih fun b hb ↦ h b (List.mem_cons_of_mem _ hb)]

@[simp] theorem forM_eq_ok {f : α → Except ε PUnit} {l : List α} {u : PUnit} :
    l.forM f = .ok u ↔ ∀ a ∈ l, f a = .ok ⟨⟩ := by
  induction l with
  | nil => exact ⟨fun _ a ha ↦ absurd ha List.not_mem_nil, fun _ ↦ rfl⟩
  | cons a l ih =>
    have hcons : (a :: l).forM f = f a >>= fun _ ↦ l.forM f := rfl
    rw [hcons, bind_eq_ok, List.forall_mem_cons, ih]
    exact ⟨fun ⟨_, ha, hl⟩ ↦ ⟨ha, hl⟩, fun ⟨ha, hl⟩ ↦ ⟨⟨⟩, ha, hl⟩⟩

/-! ## Which errors -/

/-- Every error that a computation ends in satisfies `P`. -/
structure Raises (P : ε → Prop) (x : Except ε α) : Prop where
  of_error : ∀ e, x = .error e → P e

namespace Raises

variable {P : ε → Prop}

theorem ok (a : α) : Raises P (.ok a : Except ε α) := ⟨fun _ h ↦ by cases h⟩

theorem error {e : ε} (h : P e) : Raises P (.error e : Except ε α) :=
  ⟨fun _ he ↦ Except.error.inj he ▸ h⟩

theorem mono {Q : ε → Prop} {x : Except ε α} (hx : Raises P x) (h : ∀ e, P e → Q e) :
    Raises Q x :=
  ⟨fun e he ↦ h e (hx.of_error e he)⟩

/-- The rest of a sequence, given how its first part ended. -/
theorem bind_of_ok {x : Except ε α} {f : α → Except ε β} (hx : Raises P x)
    (hf : ∀ a, x = .ok a → Raises P (f a)) : Raises P (x >>= f) := by
  refine ⟨fun e h ↦ ?_⟩
  rcases bind_eq_error.mp h with h | ⟨a, ha, h⟩
  · exact hx.of_error e h
  · exact (hf a ha).of_error e h

theorem bind {x : Except ε α} {f : α → Except ε β} (hx : Raises P x) (hf : ∀ a, Raises P (f a)) :
    Raises P (x >>= f) :=
  hx.bind_of_ok fun a _ ↦ hf a

theorem map {x : Except ε α} (hx : Raises P x) (f : α → β) : Raises P (f <$> x) :=
  hx.bind (f := fun a ↦ .ok (f a)) fun a ↦ ok (f a)

theorem ofOption {e : ε} (h : P e) (o : Option α) : Raises P (Except.ofOption e o) := by
  cases o with
  | none => exact error h
  | some a => exact ok a

theorem guardOr {c : Prop} [Decidable c] {e : ε} (h : P e) : Raises P (Except.guardOr c e) := by
  rw [Except.guardOr]
  split
  · exact ok ()
  · exact error h

theorem foldlM_of_mem {f : σ → α → Except ε σ} {l : List α}
    (hf : ∀ s, ∀ a ∈ l, Raises P (f s a)) (s : σ) : Raises P (l.foldlM f s) := by
  refine ⟨fun e h ↦ ?_⟩
  obtain ⟨done, a, rest, t, rfl, -, ha⟩ := foldlM_eq_error h
  exact (hf t a (by simp)).of_error e ha

theorem foldlM {f : σ → α → Except ε σ} (hf : ∀ s a, Raises P (f s a)) (l : List α) (s : σ) :
    Raises P (l.foldlM f s) :=
  foldlM_of_mem (fun s a _ ↦ hf s a) s

theorem mapM {f : α → Except ε β} (hf : ∀ a, Raises P (f a)) (l : List α) :
    Raises P (l.mapM f) := by
  induction l with
  | nil => exact ok []
  | cons a l ih =>
    rw [List.mapM_cons]
    exact (hf a).bind fun b ↦ ih.bind fun r ↦ ok (b :: r)

theorem forM {f : α → Except ε PUnit} (hf : ∀ a, Raises P (f a)) (l : List α) :
    Raises P (l.forM f) := by
  induction l with
  | nil => exact ok PUnit.unit
  | cons a l ih => exact (hf a).bind fun _ ↦ ih

end Raises

end Except

/-! ## Related lists -/

namespace List.Forall₂

variable {α β : Type*} {R : α → β → Prop} {l : List α} {r : List β}

theorem exists_of_forall (h : ∀ a ∈ l, ∃ b, R a b) : ∃ r, Forall₂ R l r := by
  induction l with
  | nil => exact ⟨[], .nil⟩
  | cons a l ih =>
    obtain ⟨b, hb⟩ := h a mem_cons_self
    obtain ⟨r, hr⟩ := ih fun a ha ↦ h a (mem_cons_of_mem _ ha)
    exact ⟨b :: r, .cons hb hr⟩

theorem exists_left (h : Forall₂ R l r) {b : β} (hb : b ∈ r) : ∃ a ∈ l, R a b := by
  induction h with
  | nil => simp at hb
  | @cons a b' l r hab _ ih =>
    rcases mem_cons.mp hb with rfl | hb'
    · exact ⟨a, mem_cons_self, hab⟩
    · obtain ⟨a', ha', hR⟩ := ih hb'
      exact ⟨a', mem_cons_of_mem _ ha', hR⟩

theorem exists_right (h : Forall₂ R l r) {a : α} (ha : a ∈ l) : ∃ b ∈ r, R a b :=
  h.flip.exists_left ha

/-- Elements that determine what is related to them determine the related list. -/
theorem eq_of_forall {S : α → β → Prop} {r' : List β} (h : Forall₂ R l r) (h' : Forall₂ S l r')
    (heq : ∀ a ∈ l, ∀ b b', R a b → S a b' → b = b') : r = r' := by
  induction h generalizing r' with
  | nil => exact (forall₂_nil_left_iff.mp h').symm
  | @cons a b l r hab _ ih =>
    obtain ⟨b', r', hab', hrest, rfl⟩ := forall₂_cons_left_iff.mp h'
    rw [heq a mem_cons_self b b' hab hab',
      ih hrest fun a ha ↦ heq a (mem_cons_of_mem _ ha)]

/-- A pairwise relation is carried along by what relates the elements. -/
theorem pairwise_right {P : α → α → Prop} {Q : β → β → Prop} (h : Forall₂ R l r)
    (hP : l.Pairwise P) (hQ : ∀ a a' b b', R a b → R a' b' → P a a' → Q b b') :
    r.Pairwise Q := by
  induction h with
  | nil => exact .nil
  | @cons a b l r hab hrest ih =>
    rw [pairwise_cons] at hP ⊢
    refine ⟨fun b' hb' ↦ ?_, ih hP.2⟩
    obtain ⟨a', ha', hR⟩ := hrest.exists_left hb'
    exact hQ a a' b b' hab hR (hP.1 a' ha')

end List.Forall₂
