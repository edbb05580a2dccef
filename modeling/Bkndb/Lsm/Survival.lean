import Bkndb.Basic.Run
import Bkndb.Lsm.Open
import Bkndb.Lsm.Sections
import Bkndb.Lsm.SnapshotRun

/-!
# Failing calls and killed processes

The writer runs section by section, any call may fail, a failed write may have put down a part of
its bytes, and between any two sections the process may be gone: then the file is all there is, and
the database is opened again. What counts as committed is what has a complete record in the log.

As long as no step builds on what a failed one has left behind, nothing is lost: at every place what
is in memory reads as what was committed, and opening the file at the path gives the same contents.

## What counts as committed

A commit counts from the moment its record is in the log: a process that is killed before the batch
is in the memtable has committed. `survivors` is the map that an open finds then. An append that
fails leaves at most a part of its record, but for one case: the whole record is written, and then
the sync fails. The caller is told that the commit failed, and an open finds the record, so this
failure is excluded.

## Harmless steps

A failed step may leave a memtable set aside, bytes behind the log, or a torn header. `Harmless`
asks of the next step, in the state before it, that it does not build on these: that no commit is
appended behind left-over bytes, that no second memtable is set aside, that no merge runs while one
is, and that nothing a flush writes can be mistaken for something else.

## Main results

* `Inv.step`: every harmless step keeps the invariant, with any plan for its calls.
* `survives_of_harmless`: so nothing that was committed is lost.
-/

open Container Layers

namespace Lsm

variable [Lz4] [BloomSizing]

omit [BloomSizing] in
/-- **The file at every place** stands for the map once the section is done: a batch counts from its
record on. -/
theorem AtPlace.image {tidy : Bool} {s : LsmSystem} {D : OrdMap Bytes Bytes} {pc : WriterPc}
    (h : AtPlace tidy s D pc) : ∃ (i : ℕ) (v : Image), Placed s.os s.backend.path i ∧
      s.os.contents i = v.file ∧ v.Denotes (mapAfter D pc) := by
  cases pc with
  | idle => exact AtRest.image h
  | logged pending =>
    obtain ⟨v, hlogged, -⟩ := h
    exact ⟨_, _, hlogged.disk.placed, hlogged.disk.contents, hlogged.memory.stored.logged _ _⟩
  | flushing rest => exact AtRest.image h
  | setAside rest memtable generation =>
    obtain ⟨v, hflushing, -⟩ := h
    exact ⟨_, v, hflushing.disk.placed, hflushing.disk.contents, hflushing.stored⟩
  | written rest generation handle manifest =>
    obtain ⟨v, hwritten⟩ := h
    exact ⟨_, v, hwritten.disk.placed, hwritten.disk.contents, hwritten.stored⟩
  | compacting force rest => exact h.rest.image
  | picked rest sstables => exact h.rest.image
  | reserved rest sstables generation => exact h.rest.image
  | renamed rest fresh =>
    obtain ⟨⟨⟨v, himage⟩, hplaced, -⟩, -⟩ := h
    exact ⟨_, v, hplaced, himage.contents, himage.denotes⟩
  | durable rest fresh =>
    obtain ⟨⟨⟨v, himage⟩, hplaced, -⟩, -⟩ := h
    exact ⟨_, v, hplaced, himage.contents, himage.denotes⟩
  | switched rest fresh =>
    obtain ⟨⟨⟨v, himage⟩, hplaced, -⟩, -⟩ := h
    exact ⟨_, v, hplaced, himage.contents, himage.denotes⟩

omit [BloomSizing] in
theorem AtPlace.live {tidy : Bool} {s : LsmSystem} {D : OrdMap Bytes Bytes} {pc : WriterPc}
    (h : AtPlace tidy s D pc) : SnapshotDenotes (snapshot s.backend) D := by
  cases pc with
  | idle => exact AtRest.live h
  | logged pending =>
    obtain ⟨v, hlogged, -⟩ := h
    exact hlogged.memory.live
  | flushing rest => exact AtRest.live h
  | setAside rest memtable generation =>
    obtain ⟨v, hflushing, -⟩ := h
    exact hflushing.live
  | written rest generation handle manifest =>
    obtain ⟨v, hwritten⟩ := h
    exact hwritten.live
  | compacting force rest => exact h.rest.live
  | picked rest sstables => exact h.rest.live
  | reserved rest sstables generation => exact h.rest.live
  | renamed rest fresh =>
    obtain ⟨⟨-, -, hlive, -⟩, -⟩ := h
    exact hlive
  | durable rest fresh =>
    obtain ⟨⟨-, -, hlive, -⟩, -⟩ := h
    exact hlive
  | switched rest fresh =>
    obtain ⟨⟨-, -, hlive, -⟩, -⟩ := h
    exact hlive

/-! ## What happens to other files

The engine's state says nothing of files under other names. Another program may change them;
opening the database is one such change. -/

/-- The names that the engine uses. -/
def Own (path name : String) : Prop := name = path ∨ name = compactionTmpPath path

instance (path name : String) : Decidable (Own path name) := inferInstanceAs (Decidable (_ ∨ _))

/-- The engine's names and files are as they were. -/
structure Elsewhere (s : LsmSystem) (os' : Os) : Prop where
  names : ∀ name, Own s.backend.path name → os'.names name = s.os.names name
  inodes : ∀ j < s.os.next, j = s.backend.container.file ∨ s.os.names s.backend.path = some j →
    os'.inodes j = s.os.inodes j
  next : s.os.next ≤ os'.next

omit [Lz4] [BloomSizing] in
theorem elsewhere_withPlan (s : LsmSystem) (plan : List Answer) :
    Elsewhere s (s.os.withPlan plan) := ⟨fun _ _ ↦ rfl, fun _ _ _ ↦ rfl, le_rfl⟩

section

variable {tidy : Bool} {s : LsmSystem} {D : OrdMap Bytes Bytes} {os' : Os}

omit [Lz4] [BloomSizing] in
theorem Elsewhere.placed (h : Elsewhere s os') {i : ℕ} (hp : Placed s.os s.backend.path i) :
    Placed os' s.backend.path i where
  named := by rw [h.names _ (.inl rfl), hp.named]
  lt_next := hp.lt_next.trans_le h.next
  apart j hj := by
    rw [h.names _ (.inr rfl)] at hj
    exact ⟨(hp.apart j hj).1, (hp.apart j hj).2.trans_le h.next⟩

omit [Lz4] [BloomSizing] in
theorem Elsewhere.held (h : Elsewhere s os') {i : ℕ} (hh : Held s.os s.backend.path i) :
    Held os' s.backend.path i where
  lt_next := hh.lt_next.trans_le h.next
  apart := by rw [h.names _ (.inr rfl)]; exact hh.apart

omit [Lz4] [BloomSizing] in
theorem Elsewhere.inode (h : Elsewhere s os') {i : ℕ} (hp : Placed s.os s.backend.path i) :
    os'.inodes i = s.os.inodes i := h.inodes i hp.lt_next (.inr hp.named)

omit [BloomSizing] in
theorem onDisk_elsewhere {v : Image} (h : OnDisk s v) (he : Elsewhere s os') :
    OnDisk { s with os := os' } v where
  contents := by
    have hinode := he.inode h.placed
    rw [Os.contents, hinode]
    exact h.contents
  placed := he.placed h.placed

omit [BloomSizing] in
theorem AtRest.elsewhere (h : AtRest tidy s D) (he : Elsewhere s os') :
    AtRest tidy { s with os := os' } D := by
  cases h with
  | intact v h htidy =>
    exact .intact v ⟨onDisk_elsewhere h.disk he, h.memory⟩
      fun ht ↦ ⟨(htidy ht).immutables, (htidy ht).clean⟩
  | detached htidy h =>
    obtain ⟨i, v, hne, hplaced, hcontents, hstored⟩ := h.image
    refine .detached htidy ⟨⟨i, v, hne, he.placed hplaced, ?_, hstored⟩, he.held h.held, h.live,
      h.active, h.immutables⟩
    rw [Os.contents, he.inode hplaced]
    exact hcontents

omit [BloomSizing] in
theorem Flushed.elsewhere (h : Flushed tidy s D) (he : Elsewhere s os') :
    Flushed tidy { s with os := os' } D := ⟨h.rest.elsewhere he, h.active⟩

omit [BloomSizing] in
theorem Merged.elsewhere {fresh : FreshContainer} (h : Merged s fresh D) (he : Elsewhere s os') :
    Merged { s with os := os' } fresh D := by
  obtain ⟨v, himage⟩ := h.image
  have hinode := he.inode h.placed
  refine ⟨⟨v, { himage with contents := ?_, durable := ?_ }⟩, he.placed h.placed, h.live, h.active,
    h.immutables⟩
  · rw [Os.contents, hinode]
    exact himage.contents
  · rw [Os.contents, hinode]
    exact himage.durable

omit [BloomSizing] in
/-- **What happens to other files** leaves the engine where it is. -/
theorem AtPlace.elsewhere {pc : WriterPc} (h : AtPlace tidy s D pc) (he : Elsewhere s os') :
    AtPlace tidy { s with os := os' } D pc := by
  cases pc with
  | idle => exact AtRest.elsewhere h he
  | logged pending =>
    obtain ⟨v, hlogged, hclean, himm⟩ := h
    exact ⟨v, ⟨hlogged.loggable, onDisk_elsewhere hlogged.disk he, hlogged.memory⟩, hclean, himm⟩
  | flushing rest => exact AtRest.elsewhere h he
  | setAside rest memtable generation =>
    obtain ⟨v, hflushing, hclean⟩ := h
    exact ⟨v, ⟨onDisk_elsewhere hflushing.disk he, hflushing.stored, hflushing.live,
      hflushing.books, hflushing.log, hflushing.immutables, hflushing.active, hflushing.lower,
      hflushing.next, hflushing.next_lt⟩, hclean⟩
  | written rest generation handle manifest =>
    obtain ⟨v, hwritten⟩ := h
    have hinode := he.inode hwritten.disk.placed
    refine ⟨v, { hwritten with disk := onDisk_elsewhere hwritten.disk he, durable := ?_ }⟩
    rw [Os.contents, hinode]
    exact hwritten.durable
  | compacting force rest => exact Flushed.elsewhere h he
  | picked rest sstables =>
    obtain ⟨hflushed, himm, hsst⟩ := h
    exact ⟨hflushed.elsewhere he, himm, hsst⟩
  | reserved rest sstables generation =>
    obtain ⟨hflushed, himm, hsst⟩ := h
    exact ⟨hflushed.elsewhere he, himm, hsst⟩
  | renamed rest fresh =>
    obtain ⟨hmerged, hapart, hheld⟩ := h
    exact ⟨hmerged.elsewhere he, hapart, he.held hheld⟩
  | durable rest fresh =>
    obtain ⟨hmerged, hapart, hheld⟩ := h
    exact ⟨hmerged.elsewhere he, hapart, he.held hheld⟩
  | switched rest fresh => exact ⟨h.1.elsewhere he, h.2⟩

end

omit [BloomSizing] in
theorem openWithOptions_placed {os : Os} {path : String} {i : ℕ} {v : Image}
    {D : OrdMap Bytes Bytes} (hq : os.Quiet) (hplaced : Placed os path i)
    (hc : os.contents i = v.file) (hD : v.Denotes D) (options : LsmOptions) :
    ∃ b os', openWithOptions path options os = (.ok b, os') ∧ os'.Quiet ∧ b.path = path ∧
      AtRest true ⟨os', b⟩ D := by
  obtain ⟨b, os', hopen, hopened, -⟩ :=
    @openWithOptions_image _ path options v D hD os i hq hplaced.named hplaced.lt_next hc
  exact ⟨b, os', hopen, hopened.quiet, hopened.path_eq,
    .intact _ hopened.intact fun _ ↦ hopened.settled⟩

/-- A path without a file, or with an empty one. -/
def FreshFile (os : Os) (path : String) : Prop :=
  os.names path = none ∨ ∃ i, os.names path = some i ∧ i < os.next ∧ os.contents i = []

/-- A database that was just made, no call failing. -/
def Made (s : LsmSystem) : Prop :=
  ∃ path options os, os.Quiet ∧ FreshFile os path ∧
    openWithOptions path options os = (.ok s.backend, s.os)

omit [BloomSizing] in
theorem Made.atRest {s : LsmSystem} (h : Made s) : s.os.Quiet ∧ AtRest true s ∅ := by
  obtain ⟨path, options, os, hq, hfresh, hopen⟩ := h
  obtain ⟨b, os', hopen', hopened⟩ : ∃ b os', openWithOptions path options os = (.ok b, os') ∧
      OpenedAt path options bootstrapImage ∅ ⟨os', b⟩ := by
    rcases hfresh with hnone | ⟨i, hname, hlt, hempty⟩
    · obtain ⟨b, os', hopen', hopened, -⟩ := @openWithOptions_new _ _ options _ hq hnone
      exact ⟨b, os', hopen', hopened⟩
    · obtain ⟨b, os', hopen', hopened, -⟩ :=
        @openWithOptions_empty _ _ options _ _ hq hname hlt hempty
      exact ⟨b, os', hopen', hopened⟩
  rw [hopen'] at hopen
  obtain ⟨hb, hos⟩ := Prod.mk.inj hopen
  obtain ⟨os, backend⟩ := s
  obtain rfl := hos
  obtain rfl := Except.ok.inj hb
  exact ⟨hopened.quiet, .intact _ hopened.intact fun _ ↦ hopened.settled⟩

end Lsm

section

variable [Lz4] [BloomSizing]

structure SurvivalRun where
  sys : LsmSystem
  pc : WriterPc
  /-- The map after all batches that were written to the memtable. -/
  committed : OrdMap Bytes Bytes

inductive SurvivalStep where
  /-- The writer begins a commit by appending the record; a plan answers the calls of a step. -/
  | commit (pending : Pending) (plan : List Answer)
  | forceCompact
  /-- The writer runs its next section. -/
  | advance (plan : List Answer)
  /-- The process is gone, and the database is opened again. -/
  | kill (options : LsmOptions)

namespace SurvivalRun

open Lsm

/-- The system when the calls to come are answered by this plan. -/
def planned (r : SurvivalRun) (plan : List Answer) : LsmSystem :=
  { r.sys with os := r.sys.os.withPlan plan }

/-- The map once a batch that is in the log is written to the memtable. -/
def survivors (r : SurvivalRun) : OrdMap Bytes Bytes := mapAfter r.committed r.pc

def step (r : SurvivalRun) : SurvivalStep → Option SurvivalRun
  | .commit pending plan =>
    match r.pc with
    | .idle =>
      if pending.isEmpty then some r
      else
        match appendRecord pending (r.planned plan) with
        | (.ok (), sys) => some { r with sys, pc := .logged pending }
        | (.error _, sys) => some { r with sys }
    | _ => none
  | .forceCompact =>
    match r.pc with
    | .idle => some { r with pc := .flushing [true] }
    | _ => none
  | .advance plan =>
    match Lsm.advance r.pc (r.planned plan) with
    | (.ok pc, sys) => some { sys, pc, committed := r.survivors }
    | (.error _, sys) => some { r with sys, pc := .idle }
  | .kill options =>
    match openWithOptions r.sys.backend.path options (r.sys.os.withPlan []) with
    | (.ok backend, os) => some ⟨⟨os, backend⟩, .idle, r.survivors⟩
    | (.error _, _) => none

/-- Nothing that a failed step has left behind is in the way: an append goes to the end of a log
that reaches to the end of the file at the path, and fails with its frame incomplete if it fails; no
part of a table is mistaken for something else; and no table is put underneath a memtable that is
still set aside. -/
def Harmless (r : SurvivalRun) : SurvivalStep → Prop
  | .commit pending plan =>
    pending.isEmpty ∨ (Appendable r.sys ∧ ¬SyncFails (r.sys.os.withPlan plan))
  | .advance plan => Admits (r.planned plan) r.pc
  | .forceCompact | .kill _ => True

instance (r : SurvivalRun) : (a : SurvivalStep) → Decidable (r.Harmless a)
  | .commit .. => inferInstanceAs (Decidable (_ ∨ _))
  | .advance _ => inferInstanceAs (Decidable (Admits _ _))
  | .forceCompact | .kill _ => .isTrue trivial

/-- **Nothing is lost.** A transaction begun now reads what was committed, and so does one that is
begun after the process is gone and the database is opened again. -/
structure Survives (r : SurvivalRun) : Prop where
  reads : (beginRead r.sys.backend).Reads r.committed
  reopens : ∀ options, ∃ r', r.step (.kill options) = some r' ∧
    (beginRead r'.sys.backend).Reads r.survivors

/-- A database that was just made. -/
structure Opened (r : SurvivalRun) : Prop where
  made : Made r.sys
  pc : r.pc = .idle
  committed : r.committed = ∅

/-! ## The invariant

At rest anything may be left over that a failed step can leave. Within an operation the sections
before have gone through, so there is nothing left over but what the operation started with. -/

/-- What holds at the place where the writer is. -/
def Inv (r : SurvivalRun) : Prop := AtPlace false r.sys r.committed r.pc

omit [BloomSizing] in
theorem AtRest.untidy {s : LsmSystem} {D : OrdMap Bytes Bytes} (h : AtRest true s D) :
    AtRest false s D := by
  cases h with
  | intact v h htidy => exact .intact v h nofun
  | detached htidy h => cases htidy

omit [BloomSizing] in
theorem Opened.inv {r : SurvivalRun} (h : r.Opened) : r.Inv := by
  rw [Inv, h.pc, h.committed]
  exact AtRest.untidy h.made.atRest.2

theorem Inv.commit {r r' : SurvivalRun} {pending : Pending} {plan : List Answer} (h : r.Inv)
    (hharmless : r.Harmless (.commit pending plan)) (hs : r.step (.commit pending plan) = some r') :
    r'.Inv := by
  rw [step] at hs
  split at hs
  next hpc =>
    have hplace : AtPlace false r.sys r.committed r.pc := h
    rw [hpc] at hplace
    have hrest : AtRest false (r.planned plan) r.committed :=
      AtRest.elsewhere hplace (elsewhere_withPlan r.sys plan)
    split at hs
    next hempty =>
      obtain rfl := Option.some.inj hs
      exact h
    next hne =>
      obtain ⟨happ, hsync⟩ := hharmless.resolve_left hne
      have happ' : Appendable (r.planned plan) := ⟨happ.attached, happ.clean⟩
      split at hs
      next sys hrun =>
        obtain rfl := Option.some.inj hs
        obtain ⟨-, hlogged⟩ | ⟨_, ⟨⟩, -⟩ := hrest.append_cases happ' hsync nofun hrun
        exact hlogged
      next e sys hrun =>
        obtain rfl := Option.some.inj hs
        obtain ⟨⟨⟩, -⟩ | ⟨_, -, hrest'⟩ := hrest.append_cases happ' hsync nofun hrun
        rw [Inv]
        dsimp only
        rw [hpc]
        exact hrest'
  next => cases hs

/-- **Every harmless step keeps the invariant.** -/
theorem Inv.step {r r' : SurvivalRun} {a : SurvivalStep} (h : r.Inv) (hharmless : r.Harmless a)
    (hs : r.step a = some r') : r'.Inv := by
  have hplace : AtPlace false r.sys r.committed r.pc := h
  cases a with
  | commit pending plan => exact h.commit hharmless hs
  | forceCompact =>
    rw [SurvivalRun.step] at hs
    split at hs
    next hpc =>
      obtain rfl := Option.some.inj hs
      rw [hpc] at hplace
      exact hplace
    next => cases hs
  | advance plan =>
    have hleads := (AtPlace.elsewhere hplace (elsewhere_withPlan _ plan)).advance hharmless nofun
    change Leads _ _ _ (Lsm.advance r.pc (r.planned plan)) at hleads
    rw [SurvivalRun.step] at hs
    split at hs
    next pc sys hrun =>
      rw [hrun] at hleads
      obtain rfl := Option.some.inj hs
      obtain ⟨_, hpc, hplace'⟩ | ⟨_, ⟨⟩, -⟩ := hleads
      obtain rfl := Except.ok.inj hpc
      exact hplace'
    next e sys hrun =>
      rw [hrun] at hleads
      obtain rfl := Option.some.inj hs
      obtain ⟨_, ⟨⟩, -⟩ | ⟨_, -, hrest⟩ := hleads
      exact hrest
  | kill options =>
    obtain ⟨i, v, hplaced, hcontents, hdenotes⟩ := hplace.image
    obtain ⟨b, os', hopen, -, -, hrest⟩ := @openWithOptions_placed _ (r.sys.os.withPlan [])
      r.sys.backend.path i v _ rfl ((elsewhere_withPlan r.sys []).placed hplaced) hcontents hdenotes options
    rw [SurvivalRun.step, hopen] at hs
    obtain rfl := Option.some.inj hs
    exact AtRest.untidy hrest

theorem Inv.survives {r : SurvivalRun} (h : r.Inv) : r.Survives where
  reads := ReadTx.reads (AtPlace.live h)
  reopens options := by
    have hplace : AtPlace false r.sys r.committed r.pc := h
    obtain ⟨i, v, hplaced, hcontents, hdenotes⟩ := hplace.image
    obtain ⟨b, os', hopen, -, -, hrest⟩ := @openWithOptions_placed _ (r.sys.os.withPlan [])
      r.sys.backend.path i v _ rfl ((elsewhere_withPlan r.sys []).placed hplaced) hcontents hdenotes options
    rw [SurvivalRun.step, hopen]
    exact ⟨_, rfl, ReadTx.reads hrest.live⟩

/-- **Nothing is lost.** In every run of a database that was just made in which any call may fail and the
process may be killed between any two sections, and no step builds on what a failed one has left
behind, what was committed is there, live and after another open. -/
theorem survives_of_harmless (r : SurvivalRun) (hr : r.Opened) (steps : List SurvivalStep)
    (hharmless : Run.EachStep step Harmless r steps) (r' : SurvivalRun)
    (hrun : Run.run step r steps = some r') : r'.Survives :=
  (Run.invariant (fun _ _ _ ↦ Inv.step) hr.inv hharmless hrun).survives

end SurvivalRun

end

/-! ## A run -/

namespace Lsm.Sample

/-- A database that is made at a path without a file. -/
def madeSystem (options : LsmOptions) : Option LsmSystem :=
  match openWithOptions "db" options {} with
  | (.ok backend, os) => some ⟨os, backend⟩
  | (.error _, _) => none

theorem made_of_madeSystem {options : LsmOptions} {s : LsmSystem} (h : madeSystem options = some s) :
    Made s := by
  rw [madeSystem] at h
  split at h
  next backend os hopen =>
    obtain rfl := Option.some.inj h
    exact ⟨"db", options, {}, rfl, .inl rfl, hopen⟩
  next => cases h

end Lsm.Sample

namespace SurvivalRun

open Lsm.Sample

/-- An append is cut short, and the process is killed; it is killed again with a batch in the log
only; then a flush fails in the middle of its table, and it is killed once more. -/
def killedSteps : List SurvivalStep :=
  [.commit (putOne [7] [1]) [.done, .fail 5], .kill eagerOptions, .commit (putOne [7] [1]) [],
    .kill eagerOptions, .commit (putOne [8] [2]) [], .advance [], .advance [],
    .advance [.done, .done, .fail 10], .kill eagerOptions]

/-- The run goes through, every step is harmless, and two keys are committed. -/
def goesThrough (s : LsmSystem) : Bool :=
  decide (Run.EachStep step Harmless ⟨s, .idle, ∅⟩ killedSteps) &&
    (Run.run step ⟨s, .idle, ∅⟩ killedSteps).any fun r ↦ decide (r.committed.entries.length = 2)

theorem survives_of_harmless_killed : ∃ r r', Run.run step r killedSteps = some r' ∧
    r'.committed.entries.length = 2 ∧ r'.Survives := by
  have hgoes : (madeSystem eagerOptions).any goesThrough = true := by decide +kernel
  obtain ⟨s, hmade, hgoes⟩ := (Option.any_eq_true _ _).mp hgoes
  rw [goesThrough, Bool.and_eq_true, decide_eq_true_iff] at hgoes
  obtain ⟨hharmless, hlen⟩ := hgoes
  obtain ⟨r', hrun, hlen⟩ := (Option.any_eq_true _ _).mp hlen
  exact ⟨_, r', hrun, of_decide_eq_true hlen, survives_of_harmless ⟨s, .idle, ∅⟩
    ⟨made_of_madeSystem hmade, rfl, rfl⟩ killedSteps hharmless r' hrun⟩

end SurvivalRun
