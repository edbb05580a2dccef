import Bkndb.Lsm.Session
import Bkndb.Mem.Backend

/-!
# Two backends for one program

A program runs its transactions over the in-memory backend: every transaction answers from the
contents that it is to see. Over both backends in step, the log-structured one with its flushes and
merges, the program gets the same answers from both: from the write transaction with its own writes,
and from read transactions that are kept while later commits go by.

## In step

The two backends take different steps for one call: a commit of the log-structured one goes through
a log, a memtable and perhaps a flush and a merge, and one in memory applies its overlay at once.
`ask` says what the in-memory backend is asked at each of the other's steps; while an operation is
under way it is already where the other one will be when it returns.

## The proof

Neither backend is compared with the other one. Each answers from the contents that its
transactions are to see, and these are the same: `Alike.of_answers` is the only place where the two
meet.

## Main results

* `refines_of_steps`: the in-memory backend answers from what is committed, in every run.
* `agree_of_accepted`: in every accepted run of both, transactions that belong together answer
  alike.
-/

open Lsm

/-! ## The in-memory backend -/

structure MemSession where
  backend : Mem.MemoryStorageBackend
  /-- What the committed transactions have left. -/
  contents : Contents
  readers : List (Mem.MemReadTx × Contents)
  /-- The write transaction, with the contents under its own writes. It holds the writer lock. -/
  writer : Option (Mem.MemWriteTx × Contents)

inductive MemStep where
  | beginRead
  | beginWrite
  | put (table : String) (key value : Bytes)
  | delete (table : String) (key : Bytes)
  | commit
  /-- The write transaction is dropped. -/
  | rollback

namespace MemSession

def write (r : MemSession) (call : Mem.MemWriteTx → Except BknError Mem.MemWriteTx)
    (change : Contents → Contents) : Option MemSession :=
  match r.writer with
  | some (tx, M) =>
    match call tx with
    | .ok tx => some { r with writer := some (tx, change M) }
    | .error _ => none
  | none => none

def step (r : MemSession) : MemStep → Option MemSession
  | .beginRead => some { r with readers := r.readers ++ [(Mem.beginRead r.backend, r.contents)] }
  | .beginWrite =>
    match r.writer with
    | none => some { r with writer := some (Mem.beginWrite r.backend, r.contents) }
    | some _ => none
  | .put table key value => r.write (·.put table key value) (·.put table key value)
  | .delete table key => r.write (·.delete table key) (·.delete table key)
  | .commit =>
    match r.writer with
    | some (tx, M) =>
      match tx.commit r.backend with
      | .ok backend => some { r with backend, contents := M, writer := none }
      | .error _ => none
    | none => none
  | .rollback => some { r with writer := none }

/-- A backend without tables. -/
def new : MemSession := ⟨⟨∅⟩, fun _ ↦ ∅, [], none⟩

/-- Every transaction answers from the contents it is to see. -/
structure Refines (r : MemSession) : Prop where
  readers : ∀ x ∈ r.readers, x.2.Answers x.1.get x.1.scan x.1.range
  writer : ∀ x, r.writer = some x → x.2.Answers x.1.get x.1.scan x.1.range

/-- The tables hold the contents, and so do the tables that a transaction keeps. -/
structure Inv (r : MemSession) : Prop where
  backend : Mem.Holds r.backend.tables r.contents
  readers : ∀ x ∈ r.readers, Mem.Holds x.1.snapshot x.2
  writer : ∀ x, r.writer = some x →
    x.1.snapshot = r.backend.tables ∧ Mem.Overlaid x.1.snapshot x.1.pending x.2

theorem inv_new : new.Inv := ⟨Mem.holds_empty, by simp [new], by simp [new]⟩

theorem Inv.refines {r : MemSession} (h : r.Inv) : r.Refines where
  readers x hx := Mem.MemReadTx.answers (h.readers x hx)
  writer x hx := Mem.MemWriteTx.answers (h.writer x hx).2

theorem write_eq_some {r r' : MemSession} {call : Mem.MemWriteTx → Except BknError Mem.MemWriteTx}
    {change : Contents → Contents} (hs : r.write call change = some r') :
    ∃ tx tx' M, r.writer = some (tx, M) ∧ call tx = .ok tx' ∧
      r' = { r with writer := some (tx', change M) } := by
  rw [write] at hs
  split at hs
  next tx M hwriter =>
    split at hs
    next tx' htx => exact ⟨tx, tx', M, hwriter, htx, (Option.some.inj hs).symm⟩
    next => cases hs
  next => cases hs

theorem Inv.write {r r' : MemSession} (h : r.Inv)
    {call : Mem.MemWriteTx → Except BknError Mem.MemWriteTx} {change : Contents → Contents}
    (hcall : ∀ tx tx' M, call tx = .ok tx' → Mem.Overlaid tx.snapshot tx.pending M →
      tx'.snapshot = tx.snapshot ∧ Mem.Overlaid tx'.snapshot tx'.pending (change M))
    (hs : r.write call change = some r') : r'.Inv := by
  obtain ⟨tx, tx', M, hwriter, htx, rfl⟩ := write_eq_some hs
  obtain ⟨hsnap, hover⟩ := h.writer _ hwriter
  obtain ⟨hsnap', hover'⟩ := hcall tx tx' M htx hover
  refine ⟨h.backend, h.readers, fun x hx ↦ ?_⟩
  obtain rfl := Option.some.inj hx
  exact ⟨hsnap'.trans hsnap, hover'⟩

/-- **Every step keeps the invariant.** -/
theorem Inv.step {r r' : MemSession} {a : MemStep} (h : r.Inv) (hs : r.step a = some r') :
    r'.Inv := by
  cases a with
  | beginRead =>
    obtain rfl := Option.some.inj hs
    refine ⟨h.backend, fun x hx ↦ ?_, h.writer⟩
    rcases List.mem_append.mp hx with hx | hx
    · exact h.readers x hx
    · obtain rfl := List.mem_singleton.mp hx
      exact h.backend
  | beginWrite =>
    rw [MemSession.step] at hs
    split at hs
    next =>
      obtain rfl := Option.some.inj hs
      refine ⟨h.backend, h.readers, fun x hx ↦ ?_⟩
      obtain rfl := Option.some.inj hx
      exact ⟨rfl, Mem.overlaid_beginWrite h.backend⟩
    next => cases hs
  | put table key value =>
    rw [MemSession.step] at hs
    refine h.write (fun tx tx' M htx hover ↦ ?_) hs
    obtain rfl := Except.ok.inj htx
    exact ⟨rfl, hover.write table key (some value)⟩
  | delete table key =>
    rw [MemSession.step] at hs
    refine h.write (fun tx tx' M htx hover ↦ ?_) hs
    obtain rfl := Except.ok.inj htx
    exact ⟨rfl, hover.write table key none⟩
  | commit =>
    rw [MemSession.step] at hs
    split at hs
    next tx M hwriter =>
      obtain ⟨hsnap, hover⟩ := h.writer _ hwriter
      split at hs
      next backend hcommit =>
        obtain rfl := Option.some.inj hs
        exact ⟨Mem.holds_commit hover hsnap hcommit, h.readers, nofun⟩
      next => cases hs
    next => cases hs
  | rollback =>
    obtain rfl := Option.some.inj hs
    exact ⟨h.backend, h.readers, nofun⟩

/-- **The in-memory backend answers from what is committed**, in every run. -/
theorem refines_of_steps (steps : List MemStep) (r : MemSession)
    (hrun : Run.run step new steps = some r) : r.Refines := by
  have heach : Run.EachStep step (fun _ _ ↦ True) new steps := Run.eachStep_true _ _ _
  exact (Run.invariant (fun _ _ _ h _ ↦ Inv.step h) inv_new heach hrun).refines

/-- Two commits, with a read transaction before the second, and a transaction that deletes. -/
def twoCommits : List MemStep :=
  [.beginWrite, .put "t" [7] [1], .put "t" [8] [2], .commit, .beginRead, .beginWrite,
    .delete "t" [7], .put "u" [7] [3], .commit, .beginRead, .beginWrite, .delete "u" [7]]

theorem refines_of_steps_twoCommits : ∃ r, Run.run step new twoCommits = some r ∧ r.readers.length = 2 ∧
    r.Refines := by
  have hgoes : (Run.run step new twoCommits).any fun r ↦ decide (r.readers.length = 2) := by
    decide +kernel
  obtain ⟨r, hrun, hlen⟩ := (Option.any_eq_true _ _).mp hgoes
  exact ⟨r, hrun, of_decide_eq_true hlen, refines_of_steps twoCommits r hrun⟩

end MemSession

/-! ## Both in step

The program is run on the steps of the log-structured backend, so its flushes and merges are taken
one section at a time, and reads that were begun earlier go on beside them. -/

section

variable [Lz4] [BloomSizing]

/-- A program over both backends. -/
structure Twins where
  lsm : Session
  mem : MemSession

namespace Twins

/-- What the in-memory backend is asked at a step of the log-structured one, whose commits and merges
run section by section. A database in memory is not opened again. -/
def ask (t : Twins) : SessionStep → Option MemSession
  | .beginRead => t.mem.step .beginRead
  | .beginWrite => t.mem.step .beginWrite
  | .put table key value => t.mem.step (.put table key value)
  | .delete table key => t.mem.step (.delete table key)
  | .commit => t.mem.step .commit
  | .rollback => t.mem.step .rollback
  | .forceCompact | .advance => some t.mem
  | .reopen _ => none

def step (t : Twins) (a : SessionStep) : Option Twins :=
  (t.lsm.step a).bind fun lsm ↦ (t.ask a).map fun mem ↦ ⟨lsm, mem⟩

/-- A batch fits the record of the log. -/
def Fitting (t : Twins) : SessionStep → Prop
  | .commit => ∀ x ∈ t.lsm.writer, (⟨x.1.pending.entries⟩ : WalRecord).Fits
  | _ => True

instance (t : Twins) : (a : SessionStep) → Decidable (t.Fitting a)
  | .commit => inferInstanceAs (Decidable (∀ x ∈ t.lsm.writer, _))
  | .beginRead | .beginWrite | .put .. | .delete .. | .advance | .rollback | .forceCompact |
    .reopen _ => .isTrue trivial

/-- No call of the operating system fails, no table is refused, and a batch fits its record. -/
def Accepted (t : Twins) (a : SessionStep) : Prop :=
  t.lsm.Undamaged a ∧ t.lsm.Unrefused a ∧ t.Fitting a

instance (t : Twins) (a : SessionStep) : Decidable (t.Accepted a) :=
  inferInstanceAs (Decidable (_ ∧ _ ∧ _))

/-- Two transactions answer alike. -/
structure Alike (get get' : String → Bytes → Except BknError (Option Bytes))
    (scan scan' : String → Bound Bytes → Bound Bytes →
      Except BknError (List (Except BknError (Bytes × Bytes))))
    (range range' : String → Bound Bytes → Bound Bytes → Except BknError (List (Bytes × Bytes))) :
    Prop where
  get_eq : ∀ table, Keys.Named table → ∀ key, get table key = get' table key
  scan_eq : ∀ table, Keys.Named table → ∀ start stop, scan table start stop = scan' table start stop
  range_eq : ∀ table, Keys.Named table → ∀ start stop,
    range table start stop = range' table start stop

/-- The transactions that are open answer alike. -/
structure Agree (t : Twins) : Prop where
  readers : List.Forall₂
    (fun x y ↦ Alike x.1.get y.1.get x.1.scan y.1.scan x.1.range y.1.range) t.lsm.readers
    t.mem.readers
  writer : t.lsm.pc = .idle → Option.Rel
    (fun x y ↦ Alike x.1.get y.1.get x.1.scan y.1.scan x.1.range y.1.range) t.lsm.writer
    t.mem.writer

/-- Both stand for the same. While an operation is under way, the in-memory backend is already
where the other one will be. -/
structure Inv (t : Twins) : Prop where
  lsm : t.lsm.Inv
  mem : t.mem.Inv
  readers : t.lsm.readers.map Prod.snd = t.mem.readers.map Prod.snd
  committed : t.lsm.pc = .idle →
    t.lsm.contents = t.mem.contents ∧ t.lsm.writer.map Prod.snd = t.mem.writer.map Prod.snd
  coming : t.lsm.pc ≠ .idle → t.lsm.outcome = t.mem.contents ∧ t.mem.writer = none

omit [Lz4] [BloomSizing] in
/-- Who answers from the same contents answers alike. -/
theorem Alike.of_answers {M : Contents} {get get' : String → Bytes → Except BknError (Option Bytes)}
    {scan scan' : String → Bound Bytes → Bound Bytes →
      Except BknError (List (Except BknError (Bytes × Bytes)))}
    {range range' : String → Bound Bytes → Bound Bytes → Except BknError (List (Bytes × Bytes))}
    (h : M.Answers get scan range) (h' : M.Answers get' scan' range') :
    Alike get get' scan scan' range range' where
  get_eq table hname key := (h.get_eq table hname key).trans (h'.get_eq table hname key).symm
  scan_eq table hname start stop :=
    (h.scan_eq table hname start stop).trans (h'.scan_eq table hname start stop).symm
  range_eq table hname start stop :=
    (h.range_eq table hname start stop).trans (h'.range_eq table hname start stop).symm

theorem Inv.agree {t : Twins} (h : t.Inv) : t.Agree where
  readers := by
    have hreaders := h.readers
    rw [← List.forall₂_eq_eq_eq, List.forall₂_map_left_iff, List.forall₂_map_right_iff] at hreaders
    refine List.forall₂_iff_get.mpr ⟨hreaders.length_eq, fun i hi hi' ↦ ?_⟩
    have hsame := (List.forall₂_iff_get.mp hreaders).2 i hi hi'
    have hmem := h.mem.refines.readers _ (List.get_mem t.mem.readers ⟨i, hi'⟩)
    rw [← hsame] at hmem
    exact .of_answers (h.lsm.refines.readers _ (List.get_mem t.lsm.readers ⟨i, hi⟩)) hmem
  writer hpc := by
    have hwriter := (h.committed hpc).2
    have hlsm := h.lsm.refines.writer hpc
    have hmem := h.mem.refines.writer
    cases hl : t.lsm.writer with
    | none =>
      rw [hl] at hwriter
      rw [Option.map_eq_none_iff.mp hwriter.symm]
      exact .none
    | some x =>
      rw [hl] at hwriter
      obtain ⟨y, hy, hsame⟩ := Option.map_eq_some_iff.mp hwriter.symm
      rw [hy]
      exact .some (.of_answers (hlsm x hl) (hsame ▸ hmem y hy))

theorem step_eq_some {t t' : Twins} {a : SessionStep} (hs : t.step a = some t') :
    t.lsm.step a = some t'.lsm ∧ t.ask a = some t'.mem := by
  obtain ⟨lsm, hlsm, hs⟩ := Option.bind_eq_some_iff.mp hs
  obtain ⟨mem, hmem, rfl⟩ := Option.map_eq_some_iff.mp hs
  exact ⟨hlsm, hmem⟩

omit [BloomSizing] in
theorem Inv.ask {t : Twins} (h : t.Inv) {a : SessionStep} {mem : MemSession}
    (hs : t.ask a = some mem) : mem.Inv := by
  cases a with
  | forceCompact =>
    obtain rfl := Option.some.inj hs
    exact h.mem
  | advance =>
    obtain rfl := Option.some.inj hs
    exact h.mem
  | reopen options => cases hs
  | beginRead => exact h.mem.step (a := .beginRead) hs
  | beginWrite => exact h.mem.step (a := .beginWrite) hs
  | put table key value => exact h.mem.step (a := .put table key value) hs
  | delete table key => exact h.mem.step (a := .delete table key) hs
  | commit => exact h.mem.step (a := .commit) hs
  | rollback => exact h.mem.step (a := .rollback) hs

omit [BloomSizing] in
theorem Inv.same_write {t t' : Twins} (h : t.Inv) {call : WriteTx → Except BknError WriteTx}
    {callMem : Mem.MemWriteTx → Except BknError Mem.MemWriteTx} {change : Contents → Contents}
    (hlsm : t.lsm.write call change = some t'.lsm) (hmem : t.mem.write callMem change = some t'.mem)
    (hl : t'.lsm.Inv) (hm : t'.mem.Inv) : t'.Inv := by
  obtain ⟨lsm', mem'⟩ := t'
  obtain ⟨hpc, tx, tx', M, hwriter, -, rfl⟩ := Session.write_eq_some hlsm
  obtain ⟨ty, ty', M', hwriter', -, rfl⟩ := MemSession.write_eq_some hmem
  obtain ⟨hcontents, hsame⟩ := h.committed hpc
  rw [hwriter, hwriter'] at hsame
  refine ⟨hl, hm, h.readers, fun _ ↦ ⟨hcontents, ?_⟩, fun hne ↦ absurd hpc hne⟩
  exact congrArg (Option.map change) hsame

theorem Inv.commit {t t' : Twins} (h : t.Inv) (hok : t.Accepted .commit)
    (hlsm : t.lsm.step .commit = some t'.lsm) (hmem : t.mem.step .commit = some t'.mem)
    (hl : t'.lsm.Inv) (hm : t'.mem.Inv) : t'.Inv := by
  obtain ⟨lsm', mem'⟩ := t'
  have hfailed := hok.1 lsm' hlsm
  rw [Session.step] at hlsm
  split at hlsm
  next tx M hpc hwriter =>
    obtain ⟨hcontents, hsame⟩ := h.committed hpc
    rw [hwriter] at hsame
    obtain ⟨⟨ty, M'⟩, hwriter', hM⟩ := Option.map_eq_some_iff.mp hsame.symm
    obtain rfl : M' = M := hM
    obtain ⟨backend, hcommit⟩ : ∃ backend, mem' = { t.mem with backend, contents := M', writer := none } := by
      rw [MemSession.step, hwriter'] at hmem
      dsimp only at hmem
      split at hmem
      next backend _ => exact ⟨backend, (Option.some.inj hmem).symm⟩
      next => cases hmem
    subst hcommit
    split at hlsm
    next hempty =>
      obtain rfl := Option.some.inj hlsm
      exact ⟨hl, hm, h.readers, fun _ ↦ ⟨rfl, rfl⟩, fun hne ↦ absurd hpc hne⟩
    next =>
      split at hlsm
      next sys hrun =>
        obtain rfl := Option.some.inj hlsm
        refine ⟨hl, hm, h.readers, (fun hpc ↦ by cases hpc), fun _ ↦ ⟨?_, rfl⟩⟩
        rw [Session.outcome]
        dsimp only
        rw [hwriter]
        rfl
      next e sys hrun =>
        obtain rfl := Option.some.inj hlsm
        obtain ⟨D, hstands⟩ := h.lsm.stands
        obtain ⟨-, ⟨⟨⟩, -⟩ | ⟨_, -, -, hfits⟩⟩ :=
          (hstands.atRest hpc).append_undisturbed h.lsm.quiet hrun hfailed
        exact absurd (hok.2.2 _ hwriter) hfits
  next => cases hlsm

/-- **Every accepted step keeps the backends together.** -/
theorem Inv.step {t t' : Twins} {a : SessionStep} (h : t.Inv) (hok : t.Accepted a)
    (hs : t.step a = some t') : t'.Inv := by
  obtain ⟨hlsm, hmem⟩ := step_eq_some hs
  have hl : t'.lsm.Inv := h.lsm.step hok.1 hok.2.1 hlsm
  have hm : t'.mem.Inv := h.ask hmem
  have hfailed := hok.1 t'.lsm hlsm
  obtain ⟨lsm', mem'⟩ := t'
  cases a with
  | beginRead =>
    rw [Session.step] at hlsm
    split at hlsm
    next hpc =>
      obtain rfl := Option.some.inj hlsm
      obtain rfl := Option.some.inj hmem
      obtain ⟨hcontents, hwriter⟩ := h.committed hpc
      refine ⟨hl, hm, ?_, fun _ ↦ ⟨hcontents, hwriter⟩, fun hne ↦ absurd hpc hne⟩
      simp only [List.map_append, h.readers, hcontents, List.map_cons, List.map_nil]
    next => cases hlsm
  | beginWrite =>
    rw [Session.step] at hlsm
    split at hlsm
    next hpc hnone =>
      obtain rfl := Option.some.inj hlsm
      obtain ⟨hcontents, hwriter⟩ := h.committed hpc
      rw [hnone] at hwriter
      rw [Twins.ask, MemSession.step, Option.map_eq_none_iff.mp hwriter.symm] at hmem
      obtain rfl := Option.some.inj hmem
      refine ⟨hl, hm, h.readers, fun _ ↦ ⟨hcontents, ?_⟩, fun hne ↦ absurd hpc hne⟩
      exact congrArg some hcontents
    next => cases hlsm
  | put table key value =>
    rw [Session.step] at hlsm
    rw [Twins.ask, MemSession.step] at hmem
    exact h.same_write hlsm hmem hl hm
  | delete table key =>
    rw [Session.step] at hlsm
    rw [Twins.ask, MemSession.step] at hmem
    exact h.same_write hlsm hmem hl hm
  | commit => exact h.commit hok hlsm hmem hl hm
  | rollback =>
    rw [Session.step] at hlsm
    split at hlsm
    next hpc =>
      obtain rfl := Option.some.inj hlsm
      obtain rfl := Option.some.inj hmem
      exact ⟨hl, hm, h.readers, fun _ ↦ ⟨(h.committed hpc).1, rfl⟩, fun hne ↦ absurd hpc hne⟩
    next => cases hlsm
  | forceCompact =>
    rw [Session.step] at hlsm
    split at hlsm
    next hpc hnone =>
      obtain rfl := Option.some.inj hlsm
      obtain rfl := Option.some.inj hmem
      obtain ⟨hcontents, hwriter⟩ := h.committed hpc
      rw [hnone] at hwriter
      refine ⟨hl, hm, h.readers, (fun hpc ↦ by cases hpc), fun _ ↦ ⟨?_, Option.map_eq_none_iff.mp hwriter.symm⟩⟩
      rw [Session.outcome]
      dsimp only
      rw [hnone]
      exact hcontents
    next => cases hlsm
  | advance =>
    obtain rfl := Option.some.inj hmem
    rw [Session.step] at hlsm
    split at hlsm
    next => cases hlsm
    next hne =>
      obtain ⟨hcontents, hnone⟩ := h.coming hne
      split at hlsm
      next sys hrun =>
        obtain rfl := Option.some.inj hlsm
        refine ⟨hl, hm, h.readers, fun _ ↦ ⟨hcontents, ?_⟩, fun hne ↦ absurd rfl hne⟩
        rw [hnone]
        rfl
      next pc sys hidle hrun =>
        obtain rfl := Option.some.inj hlsm
        exact ⟨hl, hm, h.readers, fun hpc ↦ absurd hpc hidle, fun _ ↦ ⟨hcontents, hnone⟩⟩
      next e sys hrun =>
        -- a merge was given up
        obtain rfl := Option.some.inj hlsm
        obtain ⟨D, hstands⟩ := h.lsm.stands
        have hcases := hstands.advance h.lsm.quiet hok.2.1
        rw [hrun] at hcases
        obtain ⟨_, ⟨⟩, -⟩ | ⟨_, -, -, -, hout⟩ := hcases hfailed
        refine ⟨hl, hm, h.readers, fun _ ↦ ⟨hout.symm.trans hcontents, ?_⟩,
          fun hne ↦ absurd rfl hne⟩
        rw [hnone]
        rfl
  | reopen options => cases hmem

/-- Two backends that have just begun. -/
structure Opened (t : Twins) : Prop where
  lsm : t.lsm.Opened
  mem : t.mem = MemSession.new

omit [BloomSizing] in
theorem Opened.inv {t : Twins} (h : t.Opened) : t.Inv := by
  obtain ⟨lsm, mem⟩ := t
  obtain ⟨hlsm, rfl⟩ := h
  refine ⟨hlsm.inv, MemSession.inv_new, ?_, fun _ ↦ ⟨hlsm.contents, ?_⟩,
    fun hne ↦ absurd hlsm.pc hne⟩
  · change lsm.readers.map Prod.snd = _
    rw [hlsm.readers]
    rfl
  · change lsm.writer.map Prod.snd = _
    rw [hlsm.writer]
    rfl

/-- **Both backends give the same answers.** In every run of a program over both in which no call of
the operating system fails, no table is refused and every batch fits its record, the transactions
that are open answer alike. -/
theorem agree_of_accepted (t : Twins) (ht : t.Opened) (steps : List SessionStep)
    (hok : Run.EachStep step Accepted t steps) (t' : Twins) (hrun : Run.run step t steps = some t') :
    t'.Agree :=
  (Run.invariant (fun _ _ _ ↦ Inv.step) ht.inv hok hrun).agree

end Twins

end

/-! ## A run of both -/

namespace Twins

open Lsm.Sample

/-- Both backends, just made. -/
def begun (s : LsmSystem) : Twins := ⟨Session.begun s, MemSession.new⟩

/-- A commit that is flushed; a deletion, with a read transaction before it, that is flushed and
merged. -/
def mergedSteps : List SessionStep :=
  [.beginWrite, .put "t" [7] [1], .commit, .advance, .advance, .advance, .advance, .beginRead,
    .beginWrite, .delete "t" [7], .commit, .advance, .advance, .advance, .advance, .advance,
    .advance, .advance, .advance, .advance, .advance, .beginRead, .beginWrite, .put "t" [9] [4]]

/-- The run goes through, with two read transactions and a write transaction open. -/
def goesThrough (s : LsmSystem) : Bool :=
  decide (Run.EachStep step Accepted (begun s) mergedSteps) &&
    (Run.run step (begun s) mergedSteps).any fun t ↦
      decide (t.lsm.readers.length = 2 ∧ t.lsm.writer.isSome)

theorem agree_of_accepted_merged : ∃ t t', Run.run step t mergedSteps = some t' ∧
    (t'.lsm.readers.length = 2 ∧ t'.lsm.writer.isSome) ∧ t'.Agree := by
  have hgoes : (madeSystem eagerOptions).any goesThrough = true := by decide +kernel
  obtain ⟨s, hmade, hgoes⟩ := (Option.any_eq_true _ _).mp hgoes
  rw [goesThrough, Bool.and_eq_true, decide_eq_true_iff] at hgoes
  obtain ⟨hok, hopen⟩ := hgoes
  obtain ⟨t', hrun, hopen⟩ := (Option.any_eq_true _ _).mp hopen
  exact ⟨begun s, t', hrun, of_decide_eq_true hopen, agree_of_accepted (begun s)
    ⟨⟨made_of_madeSystem hmade, rfl, rfl, rfl, rfl⟩, rfl⟩ mergedSteps hok t' hrun⟩

end Twins
