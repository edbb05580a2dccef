import Mathlib.Data.List.Forall2
import Mathlib.Tactic.Linarith

/-!
# Wildcard matching

A pattern matches a text that can be cut into one piece for each of its elements: a star takes any
piece, any other element a single fitting symbol.

The matcher is greedy. It walks through both, remembers the last star and where its piece ends, and
lengthens that piece when it gets stuck. Earlier stars need not be taken up again: what follows the
last star can only match further right, and there the last star reaches. `Rest` is what is left to
match in a state, and every step keeps it (`step_spec`).

## Main results

* `step_spec`: a step keeps what is left to match and comes closer to the end, or answers, and the
  answer is right.
* `run_start`: from the start, a number of steps bounded by the lengths suffices.

Resuming from a star sets the pattern back and the end of the star's piece forward, so the measure
counts the text that is left to the star first, and the pattern that is left second.
-/

namespace Wildcard

variable {α β : Type*} (star : β → Bool) (fits : β → α → Bool)

/-! ## Matching -/

/-- A piece of text an element of a pattern stands for. -/
def Fits (b : β) (w : List α) : Prop := star b = true ∨ ∃ a, w = [a] ∧ fits b a = true

/-- The text is made of a piece for each element. -/
def Matches (t : List α) (p : List β) : Prop :=
  ∃ pieces : List (List α), pieces.flatten = t ∧ List.Forall₂ (Fits star fits) p pieces

variable {star fits}

theorem matches_nil {t : List α} : Matches star fits t [] ↔ t = [] := by
  constructor
  · rintro ⟨pieces, rfl, h⟩
    rw [List.forall₂_nil_left_iff.mp h, List.flatten_nil]
  · rintro rfl
    exact ⟨[], rfl, .nil⟩

theorem matches_cons {t : List α} {b : β} {p : List β} :
    Matches star fits t (b :: p) ↔
      ∃ w u, t = w ++ u ∧ Fits star fits b w ∧ Matches star fits u p := by
  constructor
  · rintro ⟨pieces, rfl, h⟩
    obtain ⟨w, rest, hw, hrest, rfl⟩ := List.forall₂_cons_left_iff.mp h
    exact ⟨w, rest.flatten, List.flatten_cons, hw, rest, rfl, hrest⟩
  · rintro ⟨w, u, rfl, hw, rest, rfl, hrest⟩
    exact ⟨w :: rest, List.flatten_cons, .cons hw hrest⟩

/-- A star takes any front of the text. -/
theorem matches_star {t : List α} {b : β} {p : List β} (hb : star b = true) :
    Matches star fits t (b :: p) ↔ ∃ k ≤ t.length, Matches star fits (t.drop k) p := by
  rw [matches_cons]
  constructor
  · rintro ⟨w, u, rfl, -, h⟩
    exact ⟨w.length, by simp, by rwa [List.drop_left]⟩
  · rintro ⟨k, -, h⟩
    exact ⟨t.take k, t.drop k, (List.take_append_drop k t).symm, .inl hb, h⟩

theorem matches_one {t : List α} {b : β} {p : List β} (hb : star b = false) :
    Matches star fits t (b :: p) ↔
      ∃ a u, t = a :: u ∧ fits b a = true ∧ Matches star fits u p := by
  rw [matches_cons]
  constructor
  · rintro ⟨w, u, rfl, hw, h⟩
    rcases hw with hstar | ⟨a, rfl, ha⟩
    · rw [hb] at hstar
      cases hstar
    · exact ⟨a, u, rfl, ha, h⟩
  · rintro ⟨a, u, rfl, ha, h⟩
    exact ⟨[a], u, rfl, .inr ⟨a, rfl, ha⟩, h⟩

theorem matches_nil_left {p : List β} : Matches star fits [] p ↔ p.all star = true := by
  induction p with
  | nil => simp [matches_nil]
  | cons b p ih =>
    rw [List.all_cons, Bool.and_eq_true, ← ih]
    cases hb : star b with
    | true => simp [matches_star hb]
    | false => simp [matches_one hb]

/-- Elements that are no stars take a symbol each. -/
theorem Matches.drop {t : List α} {seg p : List β} (hseg : ∀ b ∈ seg, star b = false)
    (h : Matches star fits t (seg ++ p)) :
    seg.length ≤ t.length ∧ Matches star fits (t.drop seg.length) p := by
  induction seg generalizing t with
  | nil => exact ⟨Nat.zero_le _, h⟩
  | cons b seg ih =>
    obtain ⟨a, u, rfl, -, hu⟩ := (matches_one (hseg b List.mem_cons_self)).mp h
    obtain ⟨hle, hrest⟩ := ih (fun c hc ↦ hseg c (List.mem_cons_of_mem b hc)) hu
    exact ⟨Nat.succ_le_succ hle, hrest⟩

/-! ## The matcher -/

variable (star fits)

/-- Where the matcher is in the text and in the pattern, and where to resume from: the last star,
and the end of its piece. -/
structure State where
  ti : ℕ
  pi : ℕ
  back : Option (ℕ × ℕ)

/-- One step: another state, or the answer. -/
def step (t : List α) (p : List β) (s : State) : State ⊕ Bool :=
  match t[s.ti]? with
  | none => .inr ((p.drop s.pi).all star)
  | some a =>
    if p[s.pi]?.any (fits · a) then .inl ⟨s.ti + 1, s.pi + 1, s.back⟩
    else if p[s.pi]?.any star then .inl ⟨s.ti, s.pi + 1, some (s.pi, s.ti)⟩
    else
      match s.back with
      | some (sp, st) => .inl ⟨st + 1, sp + 1, some (sp, st + 1)⟩
      | none => .inr false

/-- At most so many steps; `none` when they do not suffice. -/
def run (t : List α) (p : List β) : ℕ → State → Option Bool
  | 0, _ => none
  | fuel + 1, s =>
    match step star fits t p s with
    | .inl s => run t p fuel s
    | .inr answer => some answer

/-- What is left to match: the rest of the text with the rest of the pattern, or a longer piece for
the last star with what follows it. -/
def Rest (t : List α) (p : List β) (s : State) : Prop :=
  Matches star fits (t.drop s.ti) (p.drop s.pi) ∨
    ∃ sp st, s.back = some (sp, st) ∧
      ∃ k, st < k ∧ k ≤ t.length ∧ Matches star fits (t.drop k) (p.drop (sp + 1))

/-- The elements since the last star are no stars, and have taken a symbol each. -/
structure Inv (t : List α) (p : List β) (s : State) : Prop where
  ti_le : s.ti ≤ t.length
  pi_le : s.pi ≤ p.length
  back : ∀ sp st, s.back = some (sp, st) → ∃ seg : List β, p.drop (sp + 1) = seg ++ p.drop s.pi ∧
    (∀ b ∈ seg, star b = false) ∧ st + seg.length = s.ti ∧ sp + 1 + seg.length = s.pi

/-- The text left to the last star, and the rest of the pattern. -/
def measure (t : List α) (p : List β) (s : State) : ℕ :=
  (t.length - (s.back.map Prod.snd).getD 0) * (p.length + 2) + (p.length + 1 - s.pi)

variable {star fits} {t : List α} {p : List β} {s : State}

theorem inv_start : Inv star t p ⟨0, 0, none⟩ :=
  ⟨Nat.zero_le _, Nat.zero_le _, fun _ _ h ↦ by cases h⟩

theorem rest_start : Rest star fits t p ⟨0, 0, none⟩ ↔ Matches star fits t p := by
  simp [Rest]

/-- What follows the last star does not match the rest of the text to the right of where it is
matched now, when the text is at its end. -/
theorem Inv.not_longer (hinv : Inv star t p s) (hend : s.ti = t.length) :
    ¬ ∃ sp st, s.back = some (sp, st) ∧
      ∃ k, st < k ∧ k ≤ t.length ∧ Matches star fits (t.drop k) (p.drop (sp + 1)) := by
  rintro ⟨sp, st, hback, k, hlt, hle, hm⟩
  obtain ⟨seg, hdrop, hseg, htext, -⟩ := hinv.back sp st hback
  rw [hdrop] at hm
  have hlen := (hm.drop hseg).1
  rw [List.length_drop] at hlen
  omega

theorem drop_of_getElem? {γ : Type*} {l : List γ} {i : ℕ} {a : γ} (h : l[i]? = some a) :
    l.drop i = a :: l.drop (i + 1) := by
  obtain ⟨hi, rfl⟩ := List.getElem?_eq_some_iff.mp h
  exact List.drop_eq_getElem_cons hi

/-- What one step owes: the same rest in a smaller state, or the answer. -/
def StepRight (t : List α) (p : List β) (s : State) : State ⊕ Bool → Prop
  | .inl s' => Inv star t p s' ∧ (Rest star fits t p s ↔ Rest star fits t p s') ∧
      measure t p s' < measure t p s
  | .inr answer => answer = true ↔ Rest star fits t p s

theorem stepRight_end (hinv : Inv star t p s) (hend : s.ti = t.length) :
    (p.drop s.pi).all star = true ↔ Rest star fits t p s := by
  rw [Rest, or_iff_left (hinv.not_longer hend), hend, List.drop_length, matches_nil_left]

theorem stepRight_fits {a : α} {b : β} (hinv : Inv star t p s) (ht : t[s.ti]? = some a)
    (hp : p[s.pi]? = some b) (hfits : fits b a = true) (hb : star b = false) :
    @StepRight _ _ star fits t p s (.inl ⟨s.ti + 1, s.pi + 1, s.back⟩) := by
  have htl := (List.getElem?_eq_some_iff.mp ht).1
  have hpl := (List.getElem?_eq_some_iff.mp hp).1
  have hp' := drop_of_getElem? hp
  refine ⟨⟨htl, hpl, fun sp st hback ↦ ?_⟩, ?_, ?_⟩
  · obtain ⟨seg, hdrop, hseg, htext, hpat⟩ := hinv.back sp st hback
    refine ⟨seg ++ [b], ?_, ?_, ?_, ?_⟩
    · rw [hdrop, hp', List.append_assoc, List.singleton_append]
    · simpa [or_imp, forall_and, hb] using hseg
    · rw [List.length_append, List.length_singleton, ← add_assoc, htext]
    · rw [List.length_append, List.length_singleton, ← add_assoc, hpat]
  · have hhead : Matches star fits (t.drop s.ti) (p.drop s.pi) ↔
        Matches star fits (t.drop (s.ti + 1)) (p.drop (s.pi + 1)) := by
      rw [drop_of_getElem? ht, hp', matches_one hb]
      constructor
      · rintro ⟨a', u, heq, -, h⟩
        rwa [(List.cons.inj heq).2]
      · exact fun h ↦ ⟨a, _, rfl, hfits, h⟩
    rw [Rest, Rest, hhead]
  · simp only [measure]
    omega

/-- The element is a star: its piece is empty for now. Whatever an earlier star could still reach,
this one reaches. -/
theorem stepRight_star {b : β} (hinv : Inv star t p s) (hlt : s.ti < t.length)
    (hp : p[s.pi]? = some b) (hb : star b = true) :
    @StepRight _ _ star fits t p s (.inl ⟨s.ti, s.pi + 1, some (s.pi, s.ti)⟩) := by
  have hpl := (List.getElem?_eq_some_iff.mp hp).1
  have hp' := drop_of_getElem? hp
  refine ⟨⟨hlt.le, hpl, fun sp st hback ↦ ?_⟩, ?_, ?_⟩
  · obtain ⟨rfl, rfl⟩ := Prod.mk.inj (Option.some.inj hback)
    exact ⟨[], rfl, by simp, rfl, rfl⟩
  · constructor
    · rintro (hm | ⟨sp, st, hback, k, hk, hle, hm⟩)
      · rw [hp', matches_star hb] at hm
        obtain ⟨k, hk, hm⟩ := hm
        rw [List.length_drop] at hk
        rw [List.drop_drop] at hm
        rcases Nat.eq_zero_or_pos k with rfl | hpos
        · exact .inl hm
        · exact .inr ⟨s.pi, s.ti, rfl, s.ti + k, by omega, by omega, hm⟩
      · obtain ⟨seg, hdrop, hseg, htext, -⟩ := hinv.back sp st hback
        rw [hdrop, hp'] at hm
        obtain ⟨hlen, hm⟩ := hm.drop hseg
        rw [List.length_drop] at hlen
        obtain ⟨j, hj, hm⟩ := (matches_star hb).mp hm
        rw [List.drop_drop, List.length_drop] at hj
        rw [List.drop_drop, List.drop_drop] at hm
        exact .inr ⟨s.pi, s.ti, rfl, k + (seg.length + j), by omega, by omega, hm⟩
    · rintro (hm | ⟨sp, st, hback, k, hk, hle, hm⟩)
      · refine .inl ?_
        rw [hp', matches_star hb]
        exact ⟨0, Nat.zero_le _, hm⟩
      · obtain ⟨rfl, rfl⟩ := Prod.mk.inj (Option.some.inj hback)
        refine .inl ?_
        rw [hp', matches_star hb]
        refine ⟨k - s.ti, by rw [List.length_drop]; omega, ?_⟩
        rwa [List.drop_drop, Nat.add_sub_cancel' hk.le]
  · have hst : (s.back.map Prod.snd).getD 0 ≤ s.ti := by
      cases hback : s.back with
      | none => exact Nat.zero_le _
      | some b =>
        obtain ⟨seg, -, -, htext, -⟩ := hinv.back b.1 b.2 hback
        simp only [Option.map_some, Option.getD_some]
        omega
    simp only [measure, Option.map_some, Option.getD_some]
    have hmul : (t.length - s.ti) * (p.length + 2) ≤
        (t.length - (s.back.map Prod.snd).getD 0) * (p.length + 2) :=
      Nat.mul_le_mul_right _ (by omega)
    omega

/-- Nothing fits here: the piece of the last star is made longer. -/
theorem stepRight_back {sp st : ℕ} (hinv : Inv star t p s) (hlt : s.ti < t.length)
    (hback : s.back = some (sp, st))
    (hstuck : ¬ Matches star fits (t.drop s.ti) (p.drop s.pi)) :
    @StepRight _ _ star fits t p s (.inl ⟨st + 1, sp + 1, some (sp, st + 1)⟩) := by
  obtain ⟨seg, -, -, htext, hpat⟩ := hinv.back sp st hback
  have hpl := hinv.pi_le
  refine ⟨⟨by simp only; omega, by simp only; omega, fun sp' st' hback' ↦ ?_⟩, ?_, ?_⟩
  · obtain ⟨rfl, rfl⟩ := Prod.mk.inj (Option.some.inj hback')
    exact ⟨[], rfl, by simp, rfl, rfl⟩
  · rw [Rest, or_iff_right hstuck]
    constructor
    · rintro ⟨sp', st', hback', k, hk, hle, hm⟩
      rw [hback] at hback'
      obtain ⟨rfl, rfl⟩ := Prod.mk.inj (Option.some.inj hback')
      rcases Nat.lt_or_ge (st + 1) k with hlater | hnow
      · exact .inr ⟨sp, st + 1, rfl, k, hlater, hle, hm⟩
      · obtain rfl : k = st + 1 := by omega
        exact .inl hm
    · rintro (hm | ⟨sp', st', hback', k, hk, hle, hm⟩)
      · exact ⟨sp, st, hback, st + 1, Nat.lt_succ_self st, by omega, hm⟩
      · obtain ⟨rfl, rfl⟩ := Prod.mk.inj (Option.some.inj hback')
        exact ⟨sp, st, hback, k, by omega, hle, hm⟩
  · simp only [measure, hback, Option.map_some, Option.getD_some]
    have hsplit : (t.length - st) * (p.length + 2) =
        (t.length - (st + 1)) * (p.length + 2) + (p.length + 2) := by
      rw [← Nat.succ_mul]
      congr 1
      omega
    omega

/-- Neither a star nor an element that fits begins the rest of the pattern. -/
theorem not_matches_of_stuck {a : α} {u : List α} {q : List β}
    (hfits : q.head?.any (fits · a) = false) (hstar : q.head?.any star = false) :
    ¬ Matches star fits (a :: u) q := by
  cases q with
  | nil => simp [matches_nil]
  | cons b q =>
    simp only [List.head?_cons, Option.any_some] at hfits hstar
    rw [matches_one hstar]
    rintro ⟨a', u', heq, h, -⟩
    rw [← (List.cons.inj heq).1, hfits] at h
    cases h

/-- **Every step keeps the rest and comes closer to the end.** -/
theorem step_spec (hex : ∀ b a, fits b a = true → star b = false) (hinv : Inv star t p s) :
    @StepRight _ _ star fits t p s (step star fits t p s) := by
  rw [step]
  cases ht : t[s.ti]? with
  | none =>
    have hend : s.ti = t.length := le_antisymm hinv.ti_le (List.getElem?_eq_none_iff.mp ht)
    exact stepRight_end hinv hend
  | some a =>
    have hlt := (List.getElem?_eq_some_iff.mp ht).1
    dsimp only
    split
    case isTrue hfits =>
      obtain ⟨b, hp, hfits⟩ := Option.any_eq_true _ _ |>.mp hfits
      exact stepRight_fits hinv ht hp hfits (hex b a hfits)
    case isFalse hfits =>
      split
      case isTrue hstar =>
        obtain ⟨b, hp, hstar⟩ := Option.any_eq_true _ _ |>.mp hstar
        exact stepRight_star hinv hlt hp hstar
      case isFalse hstar =>
        have hstuck : ¬ Matches star fits (t.drop s.ti) (p.drop s.pi) := by
          rw [drop_of_getElem? ht]
          refine not_matches_of_stuck ?_ ?_
          · rw [List.head?_drop]
            exact Bool.eq_false_iff.mpr hfits
          · rw [List.head?_drop]
            exact Bool.eq_false_iff.mpr hstar
        cases hback : s.back with
        | some b => exact stepRight_back hinv hlt hback hstuck
        | none => simp [StepRight, Rest, hstuck, hback]

/-- **The matcher ends, with the right answer.** -/
theorem run_spec (hex : ∀ b a, fits b a = true → star b = false) (hinv : Inv star t p s) {fuel : ℕ}
    (hfuel : measure t p s < fuel) :
    ∃ answer, run star fits t p fuel s = some answer ∧
      (answer = true ↔ Rest star fits t p s) := by
  induction fuel generalizing s with
  | zero => omega
  | succ fuel ih =>
    have hstep := step_spec hex hinv
    rw [run]
    cases hs : step star fits t p s with
    | inl s' =>
      rw [hs] at hstep
      obtain ⟨hinv', hrest, hless⟩ := hstep
      obtain ⟨answer, hrun, hans⟩ := ih hinv' (by omega)
      exact ⟨answer, hrun, hans.trans hrest.symm⟩
    | inr answer =>
      rw [hs] at hstep
      exact ⟨answer, rfl, hstep⟩

/-- From the start, the number of steps is bounded by the lengths. -/
theorem run_start (hex : ∀ b a, fits b a = true → star b = false) (t : List α) (p : List β) :
    ∃ answer, run star fits t p ((t.length + 2) * (p.length + 2)) ⟨0, 0, none⟩ = some answer ∧
      (answer = true ↔ Matches star fits t p) := by
  rw [← rest_start]
  refine run_spec hex inv_start ?_
  simp only [measure, Option.map_none, Option.getD_none, Nat.sub_zero, Nat.add_mul]
  omega

end Wildcard
