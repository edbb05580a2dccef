import Bkndb.Basic.Run
import Bkndb.Lsm.Contents
import Bkndb.Lsm.Survival
import Bkndb.Lsm.Undisturbed

/-!
# Sessions

A program opens a database, runs transactions one after the other, and opens it again. A commit and
a forced compaction run section by section, and nothing else happens meanwhile. Beside the engine
stands what it is for: the contents that the committed transactions have left, and for each open
transaction the contents it is to see. As long as no call fails and no table is refused, every
lookup and every scan answers from these contents.

## The abstract side

A session carries three things that no program stores: the committed contents, and for each open
transaction the contents it is to see. A begin copies them, a put or a delete changes one entry, a
commit takes those of the write transaction over. `Refines` compares every answer with them.

## Main results

* `Inv.step`: every step keeps the invariant, at every place between two sections.
* `refines_of_unrefused`: so in every run the engine answers from what is committed, and the
  database can be opened again.
-/

open Lsm Layers

section

variable [Lz4] [BloomSizing]

structure Session where
  sys : LsmSystem
  pc : WriterPc
  /-- What the committed transactions have left. -/
  contents : Contents
  /-- The read transactions, each with the contents when it was begun. -/
  readers : List (ReadTx × Contents)
  /-- The write transaction, with the contents under its own writes. It holds the writer lock until
  its commit returns. -/
  writer : Option (WriteTx × Contents)

inductive SessionStep where
  | beginRead
  | beginWrite
  | put (table : String) (key value : Bytes)
  | delete (table : String) (key : Bytes)
  | commit
  /-- The write transaction is dropped. -/
  | rollback
  | forceCompact
  /-- The commit or the compaction runs its next section. -/
  | advance
  /-- All transactions over, the database is closed and opened again. -/
  | reopen (options : LsmOptions)

namespace Session

/-- The contents once the operation under way has returned. -/
def outcome (r : Session) : Contents := (r.writer.map Prod.snd).getD r.contents

/-- A call of the write transaction that changes it. A table name that is too long is a panic. -/
def write (r : Session) (call : WriteTx → Except BknError WriteTx) (change : Contents → Contents) :
    Option Session :=
  match r.pc, r.writer with
  | .idle, some (tx, M) =>
    match call tx with
    | .ok tx => some { r with writer := some (tx, change M) }
    | .error _ => none
  | _, _ => none

def step (r : Session) : SessionStep → Option Session
  | .beginRead =>
    match r.pc with
    | .idle => some { r with readers := r.readers ++ [(beginRead r.sys.backend, r.contents)] }
    | _ => none
  | .beginWrite =>
    match r.pc, r.writer with
    | .idle, none => some { r with writer := some (beginWrite r.sys.backend, r.contents) }
    | _, _ => none
  | .put table key value => r.write (·.put table key value) (·.put table key value)
  | .delete table key => r.write (·.delete table key) (·.delete table key)
  | .commit =>
    match r.pc, r.writer with
    | .idle, some (tx, M) =>
      if tx.pending.isEmpty then some { r with contents := M, writer := none }
      else
        match appendRecord tx.pending r.sys with
        | (.ok (), sys) => some { r with sys, pc := .logged tx.pending }
        | (.error _, sys) => some { r with sys, writer := none }
    | _, _ => none
  | .rollback =>
    match r.pc with
    | .idle => some { r with writer := none }
    | _ => none
  | .forceCompact =>
    match r.pc, r.writer with
    | .idle, none => some { r with pc := .flushing [true] }
    | _, _ => none
  | .advance =>
    match r.pc with
    | .idle => none
    | pc =>
      match Lsm.advance pc r.sys with
      | (.ok .idle, sys) => some { r with sys, pc := .idle, contents := r.outcome, writer := none }
      | (.ok pc, sys) => some { r with sys, pc }
      | (.error _, sys) => some { r with sys, pc := .idle, writer := none }
  | .reopen options =>
    match r.pc, r.writer with
    | .idle, none =>
      match openWithOptions r.sys.backend.path options r.sys.os with
      | (.ok backend, os) => some { r with sys := ⟨os, backend⟩, readers := [] }
      | (.error _, _) => none
    | _, _ => none

/-- A database that was just made. -/
structure Opened (r : Session) : Prop where
  made : Made r.sys
  pc : r.pc = .idle
  contents : r.contents = fun _ ↦ ∅
  readers : r.readers = []
  writer : r.writer = none

/-- No call of the operating system fails. -/
def Undamaged (r : Session) (a : SessionStep) : Prop :=
  ∀ r', r.step a = some r' → r'.sys.os.failed = false

instance (r : Session) (a : SessionStep) : Decidable (r.Undamaged a) :=
  decidable_of_iff ((r.step a).all fun r' ↦ !r'.sys.os.failed) (by
    rw [Option.all_eq_true]
    simp [Undamaged])

/-- A forced compaction merges; it may be given up. -/
def Merging (r : Session) : Prop :=
  match r.pc, r.writer with
  | .picked .., none | .reserved .., none => True
  | _, _ => False

instance (r : Session) : Decidable r.Merging :=
  match h : r.pc, h' : r.writer with
  | .picked .., none | .reserved .., none => .isTrue (by simp [Merging, h, h'])
  | .picked .., some _ | .reserved .., some _ | .idle, _ | .logged _, _ | .flushing _, _ |
    .setAside .., _ | .written .., _ | .compacting .., _ | .renamed .., _ | .durable .., _ |
    .switched .., _ => .isFalse (by simp [Merging, h, h'])

/-- No table that is to be written is refused, and no counter runs out. -/
def Unrefused (r : Session) : SessionStep → Prop
  | .advance => r.Merging ∨ Lsm.Unrefused r.sys r.pc
  | _ => True

instance (r : Session) : (a : SessionStep) → Decidable (r.Unrefused a)
  | .advance => inferInstanceAs (Decidable (_ ∨ _))
  | .beginRead | .beginWrite | .put .. | .delete .. | .commit | .rollback | .forceCompact |
    .reopen _ => .isTrue trivial

/-- **Every transaction answers from the contents it is to see**, and the database can be opened
again. -/
structure Refines (r : Session) : Prop where
  readers : ∀ x ∈ r.readers, x.2.Answers x.1.get x.1.scan x.1.range
  writer : r.pc = .idle → ∀ x, r.writer = some x → x.2.Answers x.1.get x.1.scan x.1.range
  reopens : r.pc = .idle → r.writer = none → ∀ options, ∃ r', r.step (.reopen options) = some r'

/-! ## The invariant -/

/-- The engine stands for a map of the shared key space that represents the contents. -/
structure StandsFor (r : Session) (D : OrdMap Bytes Bytes) : Prop where
  place : AtPlace true r.sys D r.pc
  coming : r.pc ≠ .idle → Contents.Represents (mapAfter D r.pc) r.outcome
  committed : r.pc = .idle → Contents.Represents D r.contents
  writer : r.pc = .idle → ∀ x, r.writer = some x → SnapshotDenotes x.1.snapshot D ∧
    Contents.Represents (applyBatch D x.1.pending) x.2

structure Inv (r : Session) : Prop where
  quiet : r.sys.os.Quiet
  readers : ∀ x ∈ r.readers, ∃ D, SnapshotDenotes x.1.snapshot D ∧ Contents.Represents D x.2
  stands : ∃ D, r.StandsFor D

theorem Inv.refines {r : Session} (h : r.Inv) : r.Refines where
  readers x hx := by
    obtain ⟨D, hlive, hrep⟩ := h.readers x hx
    exact hrep.answers (ReadTx.reads hlive)
  writer hpc x hx := by
    obtain ⟨D, hstands⟩ := h.stands
    obtain ⟨hlive, hrep⟩ := hstands.writer hpc x hx
    exact hrep.answers (WriteTx.reads hlive)
  reopens hpc hwriter options := by
    obtain ⟨D, hstands⟩ := h.stands
    have hplace := hstands.place
    rw [hpc] at hplace
    obtain ⟨i, v, hplaced, hcontents, hdenotes⟩ := AtRest.image hplace
    obtain ⟨b, os', hopen, -⟩ := openWithOptions_placed h.quiet hplaced hcontents hdenotes options
    rw [step, hpc, hwriter]
    dsimp only
    rw [hopen]
    exact ⟨_, rfl⟩

omit [BloomSizing] in
theorem Opened.inv {r : Session} (h : r.Opened) : r.Inv := by
  obtain ⟨hq, hrest⟩ := h.made.atRest
  refine ⟨hq, by simp [h.readers], ∅, ?_, fun hpc ↦ absurd h.pc hpc, fun _ ↦ ?_, fun _ x hx ↦ ?_⟩
  · rw [h.pc]
    exact hrest
  · rw [h.contents]
    exact Contents.represents_empty
  · rw [h.writer] at hx
    cases hx

/-! ## What a step preserves

A step is a begin, a call of a transaction, a section of an operation under way, or a reopen. The
committed contents change when a commit returns. -/

section

variable {r r' : Session}

omit [BloomSizing] in
theorem StandsFor.atRest {D : OrdMap Bytes Bytes} (h : r.StandsFor D) (hpc : r.pc = .idle) :
    AtRest true r.sys D := by
  have hplace := h.place
  rwa [hpc] at hplace

theorem Inv.beginWrite (h : r.Inv) (hs : r.step .beginWrite = some r') : r'.Inv := by
  obtain ⟨D, hstands⟩ := h.stands
  rw [step] at hs
  split at hs
  next hpc hwriter =>
    obtain rfl := Option.some.inj hs
    refine ⟨h.quiet, h.readers, D, hstands.place, fun hne ↦ absurd hpc hne, hstands.committed,
      fun _ x hx ↦ ?_⟩
    obtain rfl := Option.some.inj hx
    exact ⟨(hstands.atRest hpc).live, hstands.committed hpc⟩
  next => cases hs

theorem Inv.beginRead (h : r.Inv) (hs : r.step .beginRead = some r') : r'.Inv := by
  obtain ⟨D, hstands⟩ := h.stands
  rw [step] at hs
  split at hs
  next hpc =>
    obtain rfl := Option.some.inj hs
    refine ⟨h.quiet, fun x hx ↦ ?_, D, hstands.place, hstands.coming, hstands.committed,
      hstands.writer⟩
    rcases List.mem_append.mp hx with hx | hx
    · exact h.readers x hx
    · obtain rfl := List.mem_singleton.mp hx
      exact ⟨D, (hstands.atRest hpc).live, hstands.committed hpc⟩
  next => cases hs

omit [Lz4] [BloomSizing] in
theorem write_eq_some {call : WriteTx → Except BknError WriteTx} {change : Contents → Contents}
    (hs : r.write call change = some r') : r.pc = .idle ∧ ∃ tx tx' M, r.writer = some (tx, M) ∧
      call tx = .ok tx' ∧ r' = { r with writer := some (tx', change M) } := by
  rw [write] at hs
  split at hs
  next tx M hpc hwriter =>
    split at hs
    next tx' htx => exact ⟨hpc, tx, tx', M, hwriter, htx, (Option.some.inj hs).symm⟩
    next => cases hs
  next => cases hs

omit [BloomSizing] in
theorem Inv.write (h : r.Inv) {call : WriteTx → Except BknError WriteTx}
    {change : Contents → Contents}
    (hcall : ∀ tx tx' D M, call tx = .ok tx' →
      Contents.Represents (applyBatch D tx.pending) M → tx'.snapshot = tx.snapshot ∧
        Contents.Represents (applyBatch D tx'.pending) (change M))
    (hs : r.write call change = some r') : r'.Inv := by
  obtain ⟨D, hstands⟩ := h.stands
  obtain ⟨hpc, tx, tx', M, hwriter, htx, rfl⟩ := write_eq_some hs
  obtain ⟨hlive, hrep⟩ := hstands.writer hpc _ hwriter
  obtain ⟨hsnap, hrep'⟩ := hcall tx tx' D M htx hrep
  refine ⟨h.quiet, h.readers, D, hstands.place, fun hne ↦ absurd hpc hne, hstands.committed,
    fun _ x hx ↦ ?_⟩
  obtain rfl := Option.some.inj hx
  exact ⟨hsnap ▸ hlive, hrep'⟩

theorem Inv.commit (h : r.Inv) (hok : r.Undamaged .commit) (hs : r.step .commit = some r') :
    r'.Inv := by
  obtain ⟨D, hstands⟩ := h.stands
  have hfailed := hok r' hs
  rw [step] at hs
  split at hs
  next tx M hpc hwriter =>
    have hrep := (hstands.writer hpc _ hwriter).2
    split at hs
    next hempty =>
      -- nothing was written
      obtain rfl := Option.some.inj hs
      rw [OrdMap.isEmpty_iff.mp hempty] at hrep
      exact ⟨h.quiet, h.readers, D, hstands.place, fun hne ↦ absurd hpc hne, fun _ ↦ hrep,
        fun _ x hx ↦ by cases hx⟩
    next =>
      split at hs
      next sys hrun =>
        obtain rfl := Option.some.inj hs
        obtain ⟨hq, ⟨-, hplace⟩ | ⟨_, ⟨⟩, -⟩⟩ :=
          (hstands.atRest hpc).append_undisturbed h.quiet hrun hfailed
        refine ⟨hq, h.readers, D, hplace, fun _ ↦ ?_, nofun, nofun⟩
        rw [outcome]
        dsimp only
        rw [hwriter]
        exact hrep
      next e sys hrun =>
        obtain rfl := Option.some.inj hs
        obtain ⟨hq, ⟨⟨⟩, -⟩ | ⟨_, -, rfl, -⟩⟩ :=
          (hstands.atRest hpc).append_undisturbed h.quiet hrun hfailed
        exact ⟨hq, h.readers, D, hstands.place, fun hne ↦ absurd hpc hne, hstands.committed,
          fun _ x hx ↦ by cases hx⟩
  next => cases hs

/-- What the next section does: it goes through, or it is a forced merge that is given up. -/
theorem StandsFor.advance {D : OrdMap Bytes Bytes} (h : r.StandsFor D) (hq : r.sys.os.Quiet)
    (hun : r.Unrefused .advance) (hok : (Lsm.advance r.pc r.sys).2.os.failed = false) :
    (∃ pc, (Lsm.advance r.pc r.sys).1 = .ok pc ∧
      AtPlace true (Lsm.advance r.pc r.sys).2 (mapAfter D r.pc) pc) ∨
    ∃ e, (Lsm.advance r.pc r.sys).1 = .error e ∧ AtRest true (Lsm.advance r.pc r.sys).2 D ∧
      mapAfter D r.pc = D ∧ r.outcome = r.contents := by
  have hplace := h.place
  rcases hun with hmerging | hun
  · rw [Merging] at hmerging
    split at hmerging
    next rest sstables hpc hwriter =>
      rw [hpc] at hplace ⊢
      rcases hplace.advance trivial fun _ ↦ ⟨hq, trivial⟩ with hgoes | ⟨e, herror, hrest⟩
      · exact .inl hgoes
      · exact .inr ⟨e, herror, hrest, rfl, by rw [outcome, hwriter]; rfl⟩
    next rest sstables generation hpc hwriter =>
      rw [hpc] at hplace ⊢
      rcases hplace.advance trivial fun _ ↦ ⟨hq, trivial⟩ with hgoes | ⟨e, herror, hrest⟩
      · exact .inl hgoes
      · exact .inr ⟨e, herror, hrest, rfl, by rw [outcome, hwriter]; rfl⟩
    next => exact hmerging.elim
  · exact .inl (hplace.progress hq hun hok)

theorem Inv.advance (h : r.Inv) (hun : r.Unrefused .advance) (hok : r.Undamaged .advance)
    (hs : r.step .advance = some r') : r'.Inv := by
  obtain ⟨D, hstands⟩ := h.stands
  have hfailed := hok r' hs
  rw [step] at hs
  split at hs
  next => cases hs
  next hne =>
    have hcoming := hstands.coming hne
    have hquiet := hstands.place.quiet_advance h.quiet
    have hcases := hstands.advance h.quiet hun
    split at hs
    next sys hrun =>
      obtain rfl := Option.some.inj hs
      rw [hrun] at hquiet hcases
      obtain ⟨_, hpc, hplace⟩ | ⟨_, ⟨⟩, -⟩ := hcases hfailed
      obtain rfl := Except.ok.inj hpc
      exact ⟨hquiet, h.readers, _, hplace, fun hne ↦ absurd rfl hne, fun _ ↦ hcoming, nofun⟩
    next pc sys hidle hrun =>
      obtain rfl := Option.some.inj hs
      rw [hrun] at hquiet hcases
      obtain ⟨_, hpc, hplace⟩ | ⟨_, ⟨⟩, -⟩ := hcases hfailed
      obtain rfl := Except.ok.inj hpc
      refine ⟨hquiet, h.readers, _, hplace, fun _ ↦ ?_, fun hpc ↦ absurd hpc ?_,
        fun hpc ↦ absurd hpc ?_⟩
      · rw [mapAfter_of_advance hrun]
        exact hcoming
      · exact hidle
      · exact hidle
    next e sys hrun =>
      obtain rfl := Option.some.inj hs
      rw [hrun] at hquiet hcases
      obtain ⟨_, ⟨⟩, -⟩ | ⟨_, -, hrest, hmap, hout⟩ := hcases hfailed
      rw [hmap, hout] at hcoming
      exact ⟨hquiet, h.readers, D, hrest, fun hne ↦ absurd rfl hne, fun _ ↦ hcoming, nofun⟩

theorem Inv.reopen (h : r.Inv) {options : LsmOptions} (hs : r.step (.reopen options) = some r') :
    r'.Inv := by
  obtain ⟨D, hstands⟩ := h.stands
  rw [step] at hs
  split at hs
  next hpc hwriter =>
    obtain ⟨i, v, hplaced, hcontents, hdenotes⟩ := (hstands.atRest hpc).image
    obtain ⟨b, os', hopen, hq, -, hrest⟩ :=
      openWithOptions_placed h.quiet hplaced hcontents hdenotes options
    rw [hopen] at hs
    obtain rfl := Option.some.inj hs
    refine ⟨hq, nofun, D, ?_, fun hne ↦ absurd hpc hne, hstands.committed, fun _ x hx ↦ ?_⟩
    · change AtPlace true _ D r.pc
      rw [hpc]
      exact hrest
    · change r.writer = some x at hx
      rw [hwriter] at hx
      cases hx
  next => cases hs

/-- **Every step keeps the invariant** when no call fails and no table is refused. -/
theorem Inv.step {a : SessionStep} (h : r.Inv) (hok : r.Undamaged a) (hun : r.Unrefused a)
    (hs : r.step a = some r') : r'.Inv := by
  cases a with
  | beginRead => exact h.beginRead hs
  | beginWrite => exact h.beginWrite hs
  | put table key value =>
    refine h.write (fun tx tx' D M htx hrep ↦ ?_) hs
    obtain ⟨hname, rfl⟩ := WriteTx.put_eq_ok htx
    exact ⟨rfl, hrep.put hname key value⟩
  | delete table key =>
    refine h.write (fun tx tx' D M htx hrep ↦ ?_) hs
    obtain ⟨hname, rfl⟩ := WriteTx.delete_eq_ok htx
    exact ⟨rfl, hrep.delete hname key⟩
  | commit => exact h.commit hok hs
  | rollback =>
    obtain ⟨D, hstands⟩ := h.stands
    rw [Session.step] at hs
    split at hs
    next hpc =>
      obtain rfl := Option.some.inj hs
      exact ⟨h.quiet, h.readers, D, hstands.place, fun hne ↦ absurd hpc hne, hstands.committed,
        fun _ x hx ↦ by cases hx⟩
    next => cases hs
  | forceCompact =>
    obtain ⟨D, hstands⟩ := h.stands
    rw [Session.step] at hs
    split at hs
    next hpc hwriter =>
      obtain rfl := Option.some.inj hs
      refine ⟨h.quiet, h.readers, D, hstands.atRest hpc, fun _ ↦ ?_, nofun, nofun⟩
      rw [outcome]
      dsimp only
      rw [hwriter]
      exact hstands.committed hpc
    next => cases hs
  | advance => exact h.advance hun hok hs
  | reopen options => exact h.reopen hs

/-- **The engine answers from what is committed.** In every run of a database that was just made, in
which no call fails and no table is refused, every transaction answers from the contents that it is
to see, and the database can be opened again. -/
theorem refines_of_unrefused (r : Session) (hr : r.Opened) (steps : List SessionStep)
    (hok : Run.EachStep step Undamaged r steps) (hun : Run.EachStep step Unrefused r steps)
    (r' : Session) (hrun : Run.run step r steps = some r') : r'.Refines :=
  (Run.invariant (fun _ _ _ h hc ↦ Inv.step h hc.1 hc.2) hr.inv (hok.and hun) hrun).refines

end

end Session

end

/-! ## A session -/

namespace Session

open Lsm.Sample

/-- A session that has just begun. -/
def begun (s : LsmSystem) : Session := ⟨s, .idle, fun _ ↦ ∅, [], none⟩

/-- A commit that stays in the log; the database is opened again; a deletion that is flushed, and a
commit that is flushed and merged. -/
def threeCommits : List SessionStep :=
  [.beginWrite, .put "t" [7] [1], .commit, .advance, .reopen eagerOptions, .beginRead,
    .beginWrite, .delete "t" [7], .commit, .advance, .advance, .advance, .advance,
    .beginWrite, .put "t" [8] [2], .commit, .advance, .advance, .advance, .advance, .advance,
    .advance, .advance, .advance, .advance, .advance, .beginRead]

/-- The run goes through: no call fails, and no table is refused. -/
def goesThrough (s : LsmSystem) : Bool :=
  decide (Run.EachStep step Undamaged (begun s) threeCommits) &&
    decide (Run.EachStep step Unrefused (begun s) threeCommits) &&
    (Run.run step (begun s) threeCommits).any fun r ↦ decide (r.readers.length = 2)

theorem refines_of_unrefused_threeCommits :
    ∃ r r', Run.run step r threeCommits = some r' ∧ r'.readers.length = 2 ∧ r'.Refines := by
  have hgoes : (madeSystem ⟨6, 2, 16, true⟩).any goesThrough = true := by decide +kernel
  obtain ⟨s, hmade, hgoes⟩ := (Option.any_eq_true _ _).mp hgoes
  rw [goesThrough, Bool.and_eq_true, Bool.and_eq_true, decide_eq_true_iff, decide_eq_true_iff]
    at hgoes
  obtain ⟨⟨hok, hun⟩, hlen⟩ := hgoes
  obtain ⟨r', hrun, hlen⟩ := (Option.any_eq_true _ _).mp hlen
  exact ⟨begun s, r', hrun, of_decide_eq_true hlen, refines_of_unrefused (begun s)
    ⟨made_of_madeSystem hmade, rfl, rfl, rfl, rfl⟩ threeCommits hok hun r' hrun⟩

end Session
