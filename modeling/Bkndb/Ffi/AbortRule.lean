import Bkndb.Ffi.Transaction

/-!
# The abort rule

What `BknDbTransaction` promises: once an operation has failed, no further operation runs on the
worker, and `commit` fails. `aborted` and the worker are guarded by different locks, so the promise
depends on the schedule: a failure is visible to `check_usable` and to `commit` only after
`note_failure`, and a call that has passed `check_usable` does not look again. The rule holds in
every run that keeps out of these two windows.

## The windows

Two steps of a call lie apart: the job runs under the lock of the worker, and its failure is noted
under another lock later. In between, a second thread may read `aborted` as clear and have its job
run, or commit what the failed job left behind. `KeepsOut` names these two steps, by the state
before them, so that it can be asked of each step of a run.

## The proof

`Ok` is the invariant of an admitted run. As long as `aborted` is clear and no failure waits to be
noted, every job so far has succeeded; a commit that takes effect has read it in such a state.
`Ok.step` is one lemma with a case for each place where a thread can stand.
-/

namespace Pc

variable {Batch Reply : Type}

/-- A failure waits to be noted. -/
def waitsToNote : Pc Batch Reply → Bool
  | .noteFailure res => BknDbTransaction.isNoted res
  | _ => false

/-- The next step runs a job. -/
def isRunJob : Pc Batch Reply → Bool
  | .runJob _ => true
  | _ => false

/-- The next step is a commit's read of `aborted`. -/
def isCommitRead : Pc Batch Reply → Bool
  | .readAborted true _ => true
  | _ => false

/-- The call of a thread has taken the worker and did not see a failure, or has committed. -/
def IsCommitting : Pc Batch Reply → Prop
  | .finish true _ none => True
  | .clearTxOpen true (.ok ()) => True
  | .returned (.ended true (.ok ())) => True
  | _ => False

/-- The call of a thread has taken the worker. -/
def HasTaken : Pc Batch Reply → Prop
  | .readAborted _ _ => True
  | pc => pc.IsCommitting

theorem IsCommitting.hasTaken {pc : Pc Batch Reply} (h : pc.IsCommitting) : pc.HasTaken := by
  cases pc <;> trivial

theorem not_isCommitting_clearTxOpen {commit : Bool} {res : Except FfiBknError Unit}
    (h : commit = true → res ≠ .ok ()) : ¬(clearTxOpen commit res : Pc Batch Reply).IsCommitting := by
  rcases commit with _ | _ <;> rcases res with e | u
  · exact id
  · exact id
  · exact id
  · exact absurd rfl (h rfl)

theorem isCommitting_of_returned {commit : Bool} {res : Except FfiBknError Unit}
    (h : (returned (.ended commit (BknDbTransaction.endResult commit res)) :
      Pc Batch Reply).IsCommitting) : (clearTxOpen commit res : Pc Batch Reply).IsCommitting := by
  cases commit with
  | false => exact h.elim
  | true =>
    cases res with
    | error e => exact h.elim
    | ok u => trivial

end Pc

namespace TxSystem

variable {Tid Batch Reply : Type}

/-- **The abort rule.** A commit succeeds, and makes the batch durable, only if every job that ran on
the worker succeeded; and no job runs on the worker after an operation that failed. -/
structure AbortRule (s : TxSystem Tid Batch Reply) : Prop where
  commit_ok : ∀ t, s.pc t = .returned (.ended true (.ok ())) →
    ∀ e ∈ s.log, e.onWorker → ¬e.failed
  durable : s.durable.isSome → ∀ e ∈ s.log, e.onWorker → ¬e.failed
  stops : s.log.Pairwise fun e e' ↦ e.failed → ¬e'.onWorker

/-- Some failed call has not noted its failure yet. -/
def Unnoted (s : TxSystem Tid Batch Reply) : Prop := ∃ t, (s.pc t).waitsToNote

/-- The step keeps out of the windows between the two locks: a job runs on a live worker only while
`aborted` is clear and no failure waits to be noted, and a commit reads `aborted` as clear only while
no failure waits to be noted. -/
def KeepsOut (s : TxSystem Tid Batch Reply) (a : Tid × Move Batch Reply) : Prop :=
  a.2.isAdvance →
    ((s.pc a.1).isRunJob → s.tx.isLive → s.tx.aborted.isNone ∧ ¬s.Unnoted) ∧
    ((s.pc a.1).isCommitRead → s.tx.aborted.isNone → ¬s.Unnoted)

instance [Fintype Tid] (s : TxSystem Tid Batch Reply) : Decidable s.Unnoted :=
  inferInstanceAs (Decidable (∃ t, (s.pc t).waitsToNote))

instance [Fintype Tid] (s : TxSystem Tid Batch Reply) (a : Tid × Move Batch Reply) :
    Decidable (s.KeepsOut a) :=
  inferInstanceAs (Decidable (_ → _ ∧ _))

/-! ## The invariant -/

/-- Every job that ran on the worker succeeded. -/
def AllRanOk (s : TxSystem Tid Batch Reply) : Prop := ∀ e ∈ s.log, e.onWorker → ¬e.failed

/-- What an admitted run keeps. -/
structure Ok (s : TxSystem Tid Batch Reply) : Prop where
  /-- A failure is noted or waits to be noted. -/
  noted : (∃ e ∈ s.log, e.failed) → s.tx.aborted ≠ none ∨ s.Unnoted
  stops : s.log.Pairwise fun e e' ↦ e.failed → ¬e'.onWorker
  /-- Once the worker is taken nothing runs any more. -/
  taken : ∀ t, (s.pc t).HasTaken → s.tx.worker = none
  committing : ∀ t, (s.pc t).IsCommitting → s.AllRanOk
  durable : s.durable.isSome → s.tx.worker = none ∧ s.AllRanOk

theorem Ok.abortRule {s : TxSystem Tid Batch Reply} (h : s.Ok) : s.AbortRule where
  commit_ok t ht := h.committing t (by rw [ht]; trivial)
  durable hd := (h.durable hd).2
  stops := h.stops

theorem ok_init (batch : Batch) : (init batch : TxSystem Tid Batch Reply).Ok where
  noted h := by simp [init] at h
  stops := List.Pairwise.nil
  taken t h := by simp [init, Pc.HasTaken, Pc.IsCommitting] at h
  committing t h := by simp [init, Pc.IsCommitting] at h
  durable h := by simp [init] at h

/-- Before any failure every job succeeded. -/
theorem allRanOk_of_not_noted {s : TxSystem Tid Batch Reply} (h : s.Ok) (ha : s.tx.aborted = none)
    (hu : ¬s.Unnoted) : ∀ e ∈ s.log, ¬e.failed := by
  intro e he hf
  rcases h.noted ⟨e, he, hf⟩ with hn | hn
  · exact hn ha
  · exact hu hn

theorem allRanOk_append_refused {s s' : TxSystem Tid Batch Reply}
    (hlog : s'.log = s.log ++ [.refused]) (h : s.AllRanOk) : s'.AllRanOk := by
  intro e he
  rw [hlog] at he
  rcases List.mem_append.mp he with he | he
  · exact h e he
  · obtain rfl := List.mem_singleton.mp he
    simp [Event.onWorker]

variable [DecidableEq Tid] {commitBatch : Batch → Except BknError Unit}

/-- A failure that waits to be noted still waits after a step of a thread that had none. -/
theorem Unnoted.goto {s s' : TxSystem Tid Batch Reply} {t : Tid} {pc : Pc Batch Reply}
    (h : s.Unnoted) (hpc : s'.pc = Function.update s.pc t pc)
    (ht : ¬(s.pc t).waitsToNote) : s'.Unnoted := by
  obtain ⟨u, hu⟩ := h
  have hne : u ≠ t := by
    rintro rfl
    exact ht hu
  refine ⟨u, ?_⟩
  rw [hpc, Function.update_of_ne hne]
  exact hu

/-- The invariant after a step of the thread `t`: what remains to be shown is about `t` and about
what the step changed. -/
theorem Ok.goto {s s' : TxSystem Tid Batch Reply} {t : Tid} {pc : Pc Batch Reply} (h : s.Ok)
    (hpc : s'.pc = Function.update s.pc t pc)
    (hnoted : (∃ e ∈ s'.log, e.failed) → s'.tx.aborted ≠ none ∨ s'.Unnoted)
    (hstops : s'.log.Pairwise fun e e' ↦ e.failed → ¬e'.onWorker)
    (hworker : s.tx.worker = none → s'.tx.worker = none ∧ (s.AllRanOk → s'.AllRanOk))
    (htaken : pc.HasTaken → s'.tx.worker = none) (hcommitting : pc.IsCommitting → s'.AllRanOk)
    (hdurable : s'.durable.isSome → s.durable.isSome ∨ (s'.tx.worker = none ∧ s'.AllRanOk)) :
    s'.Ok where
  noted := hnoted
  stops := hstops
  taken u hu := by
    rw [hpc] at hu
    by_cases hut : u = t
    · subst hut
      rw [Function.update_self] at hu
      exact htaken hu
    · rw [Function.update_of_ne hut] at hu
      exact (hworker (h.taken u hu)).1
  committing u hu := by
    rw [hpc] at hu
    by_cases hut : u = t
    · subst hut
      rw [Function.update_self] at hu
      exact hcommitting hu
    · rw [Function.update_of_ne hut] at hu
      exact (hworker (h.taken u hu.hasTaken)).2 (h.committing u hu)
  durable hd := by
    rcases hdurable hd with hd | hd
    · obtain ⟨hw, hall⟩ := h.durable hd
      exact ⟨(hworker hw).1, (hworker hw).2 hall⟩
    · exact hd

theorem Ok.goto_same {s s' : TxSystem Tid Batch Reply} {t : Tid} {pc : Pc Batch Reply} (h : s.Ok)
    (hpc : s'.pc = Function.update s.pc t pc)
    (ht : ¬(s.pc t).waitsToNote)
    (hlog : s'.log = s.log) (haborted : s'.tx.aborted = s.tx.aborted)
    (hworker : s.tx.worker = none → s'.tx.worker = none)
    (htaken : pc.HasTaken → s'.tx.worker = none) (hcommitting : pc.IsCommitting → s.AllRanOk)
    (hdurable : s'.durable.isSome → s.durable.isSome ∨ (s'.tx.worker = none ∧ s.AllRanOk)) :
    s'.Ok := by
  have hall : s.AllRanOk → s'.AllRanOk := by
    rw [AllRanOk, AllRanOk, hlog]
    exact id
  refine h.goto hpc ?_ (hlog ▸ h.stops) (fun hw ↦ ⟨hworker hw, hall⟩) htaken
    (fun hc ↦ hall (hcommitting hc)) (fun hd ↦ (hdurable hd).imp_right fun hd ↦ ⟨hd.1, hall hd.2⟩)
  rw [hlog, haborted]
  exact fun hf ↦ (h.noted hf).imp_right fun hu ↦ hu.goto hpc ht

/-! ## Steps

One lemma for each kind of step that can disturb the invariant. The others leave both the log and
`aborted` as they are (`Ok.goto_same`). -/

theorem isNoted_run {batch : Batch} {job : Job Batch Reply} :
    BknDbTransaction.isNoted (Worker.run ⟨some batch⟩ job).1 = !(job batch).1.toBool := by
  have hnoted : ∀ e, BknDbTransaction.isNoted (.error (.ofBknError e) : Except _ Reply) = true := by
    intro e
    cases e <;> rfl
  rw [Worker.run]
  dsimp only
  split
  next heq => rw [heq]; rfl
  next heq => rw [heq]; rfl
  next heq => rw [heq, hnoted]; rfl

theorem isNoted_refusal (r : Refusal) :
    BknDbTransaction.isNoted (.error r.toFfi : Except FfiBknError Reply) = true := by
  cases r with
  | build e => cases e <;> rfl
  | invalid message => rfl

theorem Ok.begin {s : TxSystem Tid Batch Reply} {t : Tid} (h : s.Ok) (hidle : s.isIdle t)
    (c : Call Batch Reply) : (s.begin t c).Ok := by
  have ht : ¬(s.pc t).waitsToNote := by
    rw [isIdle] at hidle
    split at hidle
    next hpc => simp [hpc, Pc.waitsToNote]
    next hpc => simp [hpc, Pc.waitsToNote]
    next => simp at hidle
  have hmove : ∀ pc : Pc Batch Reply, ¬pc.HasTaken → (s.goto t pc).Ok := fun pc hpc ↦
    h.goto_same rfl ht rfl rfl id (fun h ↦ absurd h hpc) (fun h ↦ absurd h.hasTaken hpc) Or.inl
  cases c with
  | op args job =>
    cases args with
    | ok u => exact hmove _ id
    | error r =>
      refine h.goto rfl (fun _ ↦ .inr ⟨t, ?_⟩) ?_
        (fun hw ↦ ⟨hw, allRanOk_append_refused rfl⟩) False.elim False.elim Or.inl
      · change (Function.update s.pc t (Pc.noteFailure (.error r.toFfi)) t).waitsToNote
        rw [Function.update_self]
        exact isNoted_refusal r
      change (s.log ++ [_]).Pairwise _
      refine List.pairwise_append.mpr ⟨h.stops, List.pairwise_singleton .., ?_⟩
      intro e _ e' he' _
      obtain rfl := List.mem_singleton.mp he'
      simp [Event.onWorker]
  | commit => exact hmove _ id
  | rollback => exact hmove _ id

/-- The worker step. With no live worker nothing runs; with one, nothing has failed so far. -/
theorem Ok.runJob {s : TxSystem Tid Batch Reply} {t : Tid} {job : Job Batch Reply} (h : s.Ok)
    (hpc : s.pc t = .runJob job) (hcond : s.KeepsOut (t, .advance)) {s' : TxSystem Tid Batch Reply}
    (hs : s.advance commitBatch t = some s') : s'.Ok := by
  rw [advance, hpc] at hs
  obtain rfl := Option.some.inj hs
  have ht : ¬(s.pc t).waitsToNote := by simp [hpc, Pc.waitsToNote]
  rcases hw : s.tx.worker with _ | ⟨_ | batch⟩
  · -- the transaction is over
    refine h.goto_same rfl ht ?_ ?_ ?_ False.elim False.elim Or.inl
    · simp [ranEvent, hw]
    · simp [BknDbTransaction.runJob, hw]
    · simp [BknDbTransaction.runJob, hw]
  · -- the worker thread has ended
    refine h.goto_same rfl ht ?_ ?_ ?_ False.elim False.elim Or.inl
    · simp [ranEvent, hw]
    · simp [BknDbTransaction.runJob, hw]
    · simp [hw]
  · obtain ⟨haborted, hunnoted⟩ :=
      (hcond rfl).1 (by simp [hpc, Pc.isRunJob]) (by simp [BknDbTransaction.isLive, hw])
    have hnone := allRanOk_of_not_noted h (Option.isNone_iff_eq_none.mp haborted) hunnoted
    have hlog : s.log ++ s.ranEvent job = s.log ++ [.ran (job batch).1.toBool] := by
      simp [ranEvent, hw]
    have hres : (s.tx.runJob job).1 = (Worker.run ⟨some batch⟩ job).1 := by
      simp [BknDbTransaction.runJob, hw]
    refine h.goto rfl ?_ ?_ (fun hn ↦ by simp [hw] at hn) False.elim False.elim Or.inl
    · rintro ⟨e, he, hf⟩
      right
      refine ⟨t, ?_⟩
      change (Function.update s.pc t (.noteFailure (s.tx.runJob job).1) t).waitsToNote
      rw [Function.update_self, Pc.waitsToNote, hres, isNoted_run]
      rcases List.mem_append.mp (hlog ▸ he) with he | he
      · exact absurd hf (hnone e he)
      · obtain rfl := List.mem_singleton.mp he
        exact hf
    · change (s.log ++ s.ranEvent job).Pairwise _
      rw [hlog]
      exact List.pairwise_append.mpr
        ⟨h.stops, List.pairwise_singleton .., fun e he _ _ hf ↦ absurd hf (hnone e he)⟩

theorem Ok.noteFailure {s : TxSystem Tid Batch Reply} {t : Tid} {res : Except FfiBknError Reply}
    (h : s.Ok) (hpc : s.pc t = .noteFailure res) {s' : TxSystem Tid Batch Reply}
    (hs : s.advance commitBatch t = some s') : s'.Ok := by
  rw [advance, hpc] at hs
  obtain rfl := Option.some.inj hs
  have hworker := s.tx.noteFailure_worker res
  by_cases hres : BknDbTransaction.isNoted res
  · exact h.goto rfl (fun _ ↦ .inl (s.tx.noteFailure_aborted_ne_none hres)) h.stops
      (fun hw ↦ ⟨hworker.trans hw, id⟩) False.elim False.elim Or.inl
  · have haborted := congrArg BknDbTransaction.aborted (s.tx.noteFailure_of_not_isNoted hres)
    refine h.goto_same rfl ?_ rfl haborted (fun hw ↦ hworker.trans hw) False.elim False.elim Or.inl
    rw [hpc]
    exact hres

/-- Every admitted step keeps the invariant. -/
theorem Ok.step {s s' : TxSystem Tid Batch Reply} {a : Tid × Move Batch Reply} (h : s.Ok)
    (hcond : s.KeepsOut a) (hs : s.step commitBatch a = some s') : s'.Ok := by
  obtain ⟨t, c | _⟩ := a
  · rw [TxSystem.step] at hs
    dsimp only at hs
    split at hs
    · obtain rfl := Option.some.inj hs
      exact h.begin ‹_› c
    · cases hs
  · change s.advance commitBatch t = some s' at hs
    have hadvance := hs
    rw [advance] at hs
    -- the steps of a call, in order
    split at hs
    next => cases hs
    next => cases hs
    next job hpc =>
      have ht : ¬(s.pc t).waitsToNote := by simp [hpc, Pc.waitsToNote]
      split at hs
      all_goals
        obtain rfl := Option.some.inj hs
        exact h.goto_same rfl ht rfl rfl id False.elim False.elim Or.inl
    next job hpc => exact h.runJob hpc hcond hadvance
    next res hpc => exact h.noteFailure hpc hadvance
    next commit hpc =>
      have ht : ¬(s.pc t).waitsToNote := by simp [hpc, Pc.waitsToNote]
      split at hs
      · obtain rfl := Option.some.inj hs
        exact h.goto_same rfl ht rfl rfl (fun _ ↦ rfl) (fun _ ↦ rfl) False.elim Or.inl
      · obtain rfl := Option.some.inj hs
        refine h.goto_same rfl ht rfl rfl id ?_ ?_ Or.inl
        all_goals cases commit <;> exact False.elim
    next commit w hpc =>
      have ht : ¬(s.pc t).waitsToNote := by simp [hpc, Pc.waitsToNote]
      have htaken : s.tx.worker = none := h.taken t (by rw [hpc]; trivial)
      obtain rfl := Option.some.inj hs
      refine h.goto_same rfl ht rfl rfl id (fun _ ↦ htaken) ?_ Or.inl
      intro hc
      -- a commit that will go through has read `aborted` as clear
      cases commit with
      | false => exact hc.elim
      | true =>
        cases haborted : s.tx.aborted with
        | some message => rw [haborted] at hc; exact hc.elim
        | none =>
          have hunnoted := (hcond rfl).2 (by simp [hpc, Pc.isCommitRead]) (by simp [haborted])
          exact fun e he _ ↦ allRanOk_of_not_noted h haborted hunnoted e he
    next commit w aborted hpc =>
      have ht : ¬(s.pc t).waitsToNote := by simp [hpc, Pc.waitsToNote]
      obtain rfl := Option.some.inj hs
      by_cases hcommit : commit = true ∧ aborted = none
      · obtain ⟨rfl, rfl⟩ := hcommit
        have hc : (s.pc t).IsCommitting := by rw [hpc]; trivial
        have htaken := h.taken t hc.hasTaken
        exact h.goto_same rfl ht rfl rfl id (fun _ ↦ htaken) (fun _ ↦ h.committing t hc)
          (fun _ ↦ .inr ⟨htaken, h.committing t hc⟩)
      · obtain ⟨hnone, herr⟩ :=
          BknDbTransaction.finishWorker_of_ok commitBatch w hcommit
        have hno : ¬(Pc.clearTxOpen commit _ : Pc Batch Reply).IsCommitting :=
          Pc.not_isCommitting_clearTxOpen herr
        refine h.goto_same rfl ht rfl rfl id ?_ ?_ ?_
        · exact fun hc ↦ absurd hc hno
        · exact fun hc ↦ absurd hc hno
        · rw [hnone]
          exact Or.inl
    next commit res hpc =>
      have ht : ¬(s.pc t).waitsToNote := by simp [hpc, Pc.waitsToNote]
      obtain rfl := Option.some.inj hs
      have hc : (Pc.returned (.ended commit (BknDbTransaction.endResult commit res)) :
          Pc Batch Reply).IsCommitting → (s.pc t).IsCommitting := by
        rw [hpc]
        exact Pc.isCommitting_of_returned
      exact h.goto_same rfl ht rfl rfl id (fun hr ↦ h.taken t (hc hr).hasTaken)
        (fun hr ↦ h.committing t (hc hr)) Or.inl

/-! ## Runs -/

/-- **The abort rule.** In every run of any number of threads whose steps keep out of the windows
between the two locks, the abort rule holds. -/
theorem abort_rule_of_keeps_out (batch : Batch) (schedule : List (Tid × Move Batch Reply))
    (hcond : Run.EachStep (step commitBatch) KeepsOut (init batch) schedule)
    (s : TxSystem Tid Batch Reply) (h : Run.run (step commitBatch) (init batch) schedule = some s) :
    s.AbortRule :=
  (Run.invariant (fun _ _ _ hok hcond hs ↦ Ok.step hok hcond hs) (ok_init batch) hcond h).abortRule

end TxSystem

/-! ## Two threads

The rule holds in a run that keeps out, and fails in the shortest run that does not. -/

/-- A batch that counts its rows; the second insert collides with the first. -/
def insertRow : Job ℕ Unit
  | 0 => (.ok (), 1)
  | n + 1 => (.error (.duplicateKey "people" [.text "1"]), n + 1)

/-- A call with one operation, taken to its end. -/
def insertCall (t : Bool) : List (Bool × Move ℕ Unit) :=
  [(t, .call (.op (.ok ()) insertRow)), (t, .advance), (t, .advance), (t, .advance)]

/-- A commit, taken to its end. -/
def commitCall (t : Bool) : List (Bool × Move ℕ Unit) :=
  [(t, .call .commit), (t, .advance), (t, .advance), (t, .advance), (t, .advance)]

namespace TxSystem

/-- The rule at a run in which one thread inserts twice and then the other commits. -/
theorem abort_rule_of_keeps_out_two_inserts :
    ∃ s : TxSystem Bool ℕ Unit, Run.run (step fun _ ↦ .ok ()) (init 0)
        (insertCall true ++ insertCall true ++ commitCall false) = some s ∧
      s.AbortRule ∧ s.log = [.ran true, .ran false] ∧ s.durable = none := by
  refine ⟨_, rfl, ?_, rfl, rfl⟩
  refine abort_rule_of_keeps_out 0 (insertCall true ++ insertCall true ++ commitCall false) ?_ _ rfl
  decide +kernel

/-- The first insert of one thread succeeds and its second one fails on the worker; before the
failure is noted, the other thread commits. -/
theorem not_abort_rule_of_early_commit :
    ¬∀ (schedule : List (Bool × Move ℕ Unit)) (s : TxSystem Bool ℕ Unit),
      Run.run (step fun _ ↦ .ok ()) (init 0) schedule = some s → s.AbortRule := by
  intro h
  have hrun := h (insertCall true ++ (insertCall true).take 3 ++ commitCall false) _ rfl
  exact hrun.durable rfl (.ran false) (by decide) rfl rfl

end TxSystem
