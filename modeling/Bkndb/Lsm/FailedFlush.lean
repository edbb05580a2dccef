import Bkndb.Lsm.Survival

/-!
# Flushes that fail

A flush can fail at any call that it makes: while it writes the table or the manifest, at the sync,
and while it writes the header. Its memtable has been set aside by then and stays so for good, and
what it has written stays in the file behind the log.

## What is left behind

None of this does any harm by itself: the memtable still answers, and an open finds its records in
the log. It is later steps that can build on it. A flush that goes through puts a newer table
underneath the memtable and moves the beginning of the log behind its records; a merge starts a new
file without them; and a commit behind left-over bytes is not found again.

## Main results

* `survives_of_failed_flush`: the database is intact as long as no step does so.
* `not_survives_of_failed_flush`: a later flush hides what is committed.
-/

open Lsm

section

variable [Lz4] [BloomSizing]

namespace SurvivalRun

/-- The writer is to write a table, and with these answers it fails. -/
def FlushFails (r : SurvivalRun) (plan : List Answer) : Prop :=
  ∃ rest memtable generation, r.pc = .setAside rest memtable generation ∧
    ∃ e, (writeFlush memtable generation (r.planned plan)).1 = .error e

instance (r : SurvivalRun) (plan : List Answer) : Decidable (r.FlushFails plan) :=
  match hpc : r.pc with
  | .setAside rest memtable generation =>
    match hrun : (writeFlush memtable generation (r.planned plan)).1 with
    | .error e => .isTrue ⟨rest, memtable, generation, hpc, e, hrun⟩
    | .ok _ => .isFalse fun ⟨_, _, _, hpc', e, hrun'⟩ ↦ by
        cases hpc.symm.trans hpc'
        cases hrun.symm.trans hrun'
  | .idle | .logged _ | .flushing _ | .written .. | .compacting .. | .picked .. | .reserved .. |
    .renamed .. | .durable .. | .switched .. => .isFalse fun ⟨_, _, _, hpc', _⟩ ↦ by
        cases hpc.symm.trans hpc'

/-- No call of the operating system fails. -/
def Calm : SurvivalStep → Prop
  | .commit _ plan | .advance plan => plan = []
  | .forceCompact | .kill _ => True

instance : (a : SurvivalStep) → Decidable (Calm a)
  | .commit .. | .advance _ => inferInstanceAs (Decidable (_ = _))
  | .forceCompact | .kill _ => .isTrue trivial

theorem FlushFails.step {r r' : SurvivalRun} {plan : List Answer} (h : r.FlushFails plan)
    (hs : r.step (.advance plan) = some r') : r'.pc = .idle ∧ r'.committed = r.committed := by
  obtain ⟨rest, memtable, generation, hpc, e, hrun⟩ := h
  rw [SurvivalRun.step, hpc, Lsm.advance, Effect.bind_apply_of_error (Prod.ext hrun rfl)] at hs
  obtain rfl := Option.some.inj hs
  exact ⟨rfl, rfl⟩

/-- **A failed flush leaves the database intact**, at whatever call it fails and whatever comes
after, as long as no step builds on what it has left behind. -/
theorem survives_of_failed_flush (r : SurvivalRun) (hr : r.Opened) (before : List SurvivalStep)
    (hbefore : Run.EachStep step Harmless r before) (r₁ : SurvivalRun)
    (hrun₁ : Run.run step r before = some r₁) (plan : List Answer) (hfails : r₁.FlushFails plan)
    (hleft : r₁.Harmless (.advance plan)) (r₂ : SurvivalRun)
    (hstep : r₁.step (.advance plan) = some r₂) (after : List SurvivalStep)
    (hafter : Run.EachStep step Harmless r₂ after) (r₃ : SurvivalRun)
    (hrun₃ : Run.run step r₂ after = some r₃) :
    r₂.pc = .idle ∧ r₂.committed = r₁.committed ∧ r₃.Survives := by
  have hinv₁ : r₁.Inv := Run.invariant (fun _ _ _ ↦ Inv.step) hr.inv hbefore hrun₁
  have hinv₃ : r₃.Inv := Run.invariant (fun _ _ _ ↦ Inv.step) (hinv₁.step hleft hstep) hafter hrun₃
  obtain ⟨hpc, hcommitted⟩ := hfails.step hstep
  exact ⟨hpc, hcommitted, hinv₃.survives⟩

end SurvivalRun

end

/-! ## Two flushes -/

namespace SurvivalRun

open Lsm Lsm.Sample

/-- A commit, and its flush up to the table. -/
def flushSteps : List SurvivalStep := [.commit (putOne [7] [1]) [], .advance [], .advance []]

/-- The process is killed, and another commit goes through with its flush. -/
def killAndCommitSteps : List SurvivalStep :=
  [.kill eagerOptions, .commit (putOne [8] [2]) [], .advance [], .advance [], .advance [],
    .advance []]

/-- The table is cut short. -/
def cutPlan : List Answer := [.done, .done, .fail 10]

theorem survives_of_failed_flush_killed : ∃ r r₁ r₂ r₃, Run.run step r flushSteps = some r₁ ∧
    r₁.FlushFails cutPlan ∧ r₁.step (.advance cutPlan) = some r₂ ∧
    Run.run step r₂ killAndCommitSteps = some r₃ ∧ r₃.committed.entries.length = 2 ∧
    r₂.pc = .idle ∧ r₂.committed = r₁.committed ∧ r₃.Survives := by
  have hgoes : (madeSystem eagerOptions).any (fun s ↦
      decide (Run.EachStep step Harmless ⟨s, .idle, ∅⟩ flushSteps) &&
        (Run.run step ⟨s, .idle, ∅⟩ flushSteps).any fun r₁ ↦
          decide (r₁.FlushFails cutPlan ∧ r₁.Harmless (.advance cutPlan)) &&
            (r₁.step (.advance cutPlan)).any fun r₂ ↦
              decide (Run.EachStep step Harmless r₂ killAndCommitSteps) &&
                (Run.run step r₂ killAndCommitSteps).any fun r₃ ↦
                  decide (r₃.committed.entries.length = 2)) = true := by decide +kernel
  obtain ⟨s, hmade, hgoes⟩ := (Option.any_eq_true _ _).mp hgoes
  obtain ⟨hbefore, hgoes⟩ := Bool.and_eq_true_iff.mp hgoes
  obtain ⟨r₁, hrun₁, hgoes⟩ := (Option.any_eq_true _ _).mp hgoes
  obtain ⟨hfails, hgoes⟩ := Bool.and_eq_true_iff.mp hgoes
  obtain ⟨hfails, hleft⟩ := of_decide_eq_true hfails
  obtain ⟨r₂, hstep, hgoes⟩ := (Option.any_eq_true _ _).mp hgoes
  obtain ⟨hafter, hgoes⟩ := Bool.and_eq_true_iff.mp hgoes
  obtain ⟨r₃, hrun₃, hlen⟩ := (Option.any_eq_true _ _).mp hgoes
  have hopened : Opened ⟨s, .idle, ∅⟩ := ⟨made_of_madeSystem hmade, rfl, rfl⟩
  exact ⟨_, r₁, r₂, r₃, hrun₁, hfails, hstep, hrun₃, of_decide_eq_true hlen,
    survives_of_failed_flush _ hopened flushSteps (of_decide_eq_true hbefore) r₁ hrun₁ cutPlan
      hfails hleft r₂ hstep killAndCommitSteps (of_decide_eq_true hafter) r₃ hrun₃⟩

/-- The same key is committed again, and this time the flush goes through. -/
def overwriteSteps : List SurvivalStep :=
  [.commit (putOne [7] [2]) [], .advance [], .advance [], .advance [], .advance []]

/-- A transaction reads the value that was overwritten. -/
def readsOverwritten (r : SurvivalRun) : Bool :=
  ((beginRead r.sys.backend).get "t" [7]).toOption == some (some [1]) &&
    (Keys.tableOf r.committed (Keys.prefixBytes "t")).get? [7] == some [2]

/-- **A failed flush hides what is committed later.** -/
theorem not_survives_of_failed_flush : ¬∀ r : SurvivalRun, r.Opened →
    ∀ (before : List SurvivalStep) (r₁ : SurvivalRun), Run.run step r before = some r₁ →
    ∀ plan, r₁.FlushFails plan → ∀ r₂, r₁.step (.advance plan) = some r₂ →
    ∀ after : List SurvivalStep, (∀ a ∈ after, Calm a) →
    ∀ r₃, Run.run step r₂ after = some r₃ → r₃.Survives := by
  intro h
  have hgoes : (madeSystem eagerOptions).any (fun s ↦
      (Run.run step ⟨s, .idle, ∅⟩ flushSteps).any fun r₁ ↦
        decide (r₁.FlushFails [.fail 0]) && (r₁.step (.advance [.fail 0])).any fun r₂ ↦
          (Run.run step r₂ overwriteSteps).any readsOverwritten) = true := by decide +kernel
  obtain ⟨s, hmade, hgoes⟩ := (Option.any_eq_true _ _).mp hgoes
  obtain ⟨r₁, hrun₁, hgoes⟩ := (Option.any_eq_true _ _).mp hgoes
  obtain ⟨hfails, hgoes⟩ := Bool.and_eq_true_iff.mp hgoes
  obtain ⟨r₂, hstep, hgoes⟩ := (Option.any_eq_true _ _).mp hgoes
  obtain ⟨r₃, hrun₃, hreads⟩ := (Option.any_eq_true _ _).mp hgoes
  have hopened : Opened ⟨s, .idle, ∅⟩ := ⟨made_of_madeSystem hmade, rfl, rfl⟩
  have hsurvives := h _ hopened flushSteps r₁ hrun₁ _ (of_decide_eq_true hfails) r₂ hstep
    overwriteSteps (by decide) r₃ hrun₃
  rw [readsOverwritten, Bool.and_eq_true, beq_iff_eq, beq_iff_eq] at hreads
  have hget := hsurvives.reads.get_eq "t" (by decide) [7]
  rw [hget, hreads.2] at hreads
  cases hreads.1

end SurvivalRun
