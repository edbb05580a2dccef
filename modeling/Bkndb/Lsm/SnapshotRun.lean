import Bkndb.Basic.Run
import Bkndb.Lsm.Writer

/-!
# Readers beside a writer

One writer commits, flushes and merges, and readers take snapshots between any two of its sections.
Any call may fail, and an operation that fails is given up where it is. What a snapshot reads is
what was committed when it was taken, as long as no flush fails with its memtable set aside: such a
memtable stays among the layers, and the next flush puts a newer SSTable underneath it.

## The failing flush

A flush that fails leaves its memtable set aside. It is read before the SSTables, and nothing takes
it away; a later flush puts its table underneath, so that a read finds the old entry first. This is
the one way in which a snapshot reads something else than what was committed, and `Unobstructed`
excludes it, by the state before the section.

## Main results

* `isolated_of_unobstructed`: in every run that excludes it every snapshot reads what was
  committed.
* `not_isolated`: a flush that fails, and then one that does not.
-/

open Lsm

section

variable [Lz4] [BloomSizing]

/-- The writer, and the readers' snapshots, each with what was committed when it was taken. -/
structure SnapshotRun where
  sys : LsmSystem
  pc : WriterPc
  /-- The map after all batches written to the memtable so far. -/
  committed : OrdMap Bytes Bytes
  readers : List (ReadSnapshot × OrdMap Bytes Bytes)

inductive SnapshotStep where
  /-- The writer begins a commit by appending the record; a plan answers the calls of a step. -/
  | commit (pending : Pending) (plan : List Answer)
  /-- The writer begins a forced compaction. -/
  | forceCompact
  /-- The writer runs its next section. -/
  | advance (plan : List Answer)
  /-- A reader takes a snapshot. -/
  | snapshot

namespace SnapshotRun

/-- The system when the calls to come are answered by this plan. -/
def planned (r : SnapshotRun) (plan : List Answer) : LsmSystem :=
  { r.sys with os := r.sys.os.withPlan plan }

/-- The map once the section at this place is done. -/
def committedAfter (r : SnapshotRun) : OrdMap Bytes Bytes :=
  match r.pc with
  | .logged pending => Layers.applyBatch r.committed pending
  | _ => r.committed

def step (r : SnapshotRun) : SnapshotStep → Option SnapshotRun
  | .commit pending plan =>
    match r.pc with
    | .idle =>
      if pending.isEmpty then some r
      else
        match appendRecord pending (r.planned plan) with
        | (.ok (), sys) => some { r with sys, pc := .logged pending }
        | (.error _, sys) => some { r with sys }
    | _ => none
  | .forceCompact =>
    match r.pc with
    | .idle => some { r with pc := .flushing [true] }
    | _ => none
  | .advance plan =>
    match Lsm.advance r.pc (r.planned plan) with
    | (.ok pc, sys) => some { r with sys, pc, committed := r.committedAfter }
    | (.error _, sys) => some { r with sys, pc := .idle }
  | .snapshot => some { r with readers := r.readers ++ [(snapshot r.sys.backend, r.committed)] }

/-- An engine as an open leaves it, no snapshot taken. -/
structure Opened (r : SnapshotRun) : Prop where
  pc : r.pc = .idle
  immutables : r.sys.backend.state.immutableMemtables = []
  committed : SnapshotDenotes (snapshot r.sys.backend) r.committed
  readers : r.readers = []

/-- No flush fails with its memtable set aside: there is a next generation when it is, no call of the
write fails, and nothing else is in its way. -/
def Unobstructed (r : SnapshotRun) : SnapshotStep → Prop
  | .advance plan =>
    match r.pc with
    | .flushing _ => r.sys.backend.state.activeMemtable = ∅ ∨
        r.sys.backend.state.nextSstableId + 1 < 2 ^ 64
    | .setAside _ memtable generation => plan = [] ∧ FlushFits r.sys memtable generation
    | _ => True
  | _ => True

instance (r : SnapshotRun) : (a : SnapshotStep) → Decidable (r.Unobstructed a)
  | .commit .. | .forceCompact | .snapshot => .isTrue trivial
  | .advance plan =>
    match h : r.pc with
    | .flushing _ => decidable_of_iff (r.sys.backend.state.activeMemtable = ∅ ∨
        r.sys.backend.state.nextSstableId + 1 < 2 ^ 64) (by simp [Unobstructed, h])
    | .setAside _ memtable generation =>
      decidable_of_iff (plan = [] ∧ FlushFits r.sys memtable generation) (by simp [Unobstructed, h])
    | .idle | .logged _ | .written .. | .compacting .. | .picked .. | .reserved .. | .renamed .. |
      .durable .. | .switched .. => .isTrue (by simp [Unobstructed, h])

/-- Every snapshot reads what was committed when it was taken. -/
def Isolated (r : SnapshotRun) : Prop := ∀ x ∈ r.readers, (ReadTx.mk x.1).Reads x.2

/-! ## The invariant

The layers denote what is committed at every place; what holds besides depends on the place. The
sections of a flush and of a merge move entries between layers, and one section writes the batch. -/

/-- What holds at each place besides that the layers denote what is committed. -/
def AtPc (b : LsmStorageBackend) (D : OrdMap Bytes Bytes) : WriterPc → Prop
  | .setAside _ memtable generation => b.state.immutableMemtables = [(generation, memtable)]
  | .written _ generation handle _ => ∃ memtable,
      b.state.immutableMemtables = [(generation, memtable)] ∧ handle.Holds memtable.entries
  | .picked _ sstables | .reserved _ sstables _ =>
    b.state.immutableMemtables = [] ∧ sstables = b.state.sstables
  | .renamed _ fresh | .durable _ fresh | .switched _ fresh =>
    b.state.immutableMemtables = [] ∧
      SnapshotDenotes { snapshot b with sstables := [fresh.handle] } D
  | _ => b.state.immutableMemtables = []

structure Inv (r : SnapshotRun) : Prop where
  readers : ∀ x ∈ r.readers, SnapshotDenotes x.1 x.2
  live : SnapshotDenotes (snapshot r.sys.backend) r.committed
  place : AtPc r.sys.backend r.committed r.pc

omit [BloomSizing] in
theorem Opened.inv {r : SnapshotRun} (h : r.Opened) : r.Inv where
  readers := by simp [h.readers]
  live := h.committed
  place := by
    rw [h.pc]
    exact h.immutables

omit [BloomSizing] in
theorem Inv.isolated {r : SnapshotRun} (h : r.Inv) : r.Isolated :=
  fun x hx ↦ ReadTx.reads (h.readers x hx)

omit [BloomSizing] in
theorem atPc_compactions {b : LsmStorageBackend} {D : OrdMap Bytes Bytes}
    (h : b.state.immutableMemtables = []) (rest : List Bool) : AtPc b D (.compactions rest) := by
  cases rest <;> exact h

/-- How a section may end: at a place where what has to hold there holds, or with an error; the layers
denote what is committed then. -/
def Ends (D D' : OrdMap Bytes Bytes) (x : Except BknError WriterPc × LsmSystem) : Prop :=
  (∃ pc, x.1 = .ok pc ∧ SnapshotDenotes (snapshot x.2.backend) D' ∧ AtPc x.2.backend D' pc) ∨
    ∃ e, x.1 = .error e ∧ SnapshotDenotes (snapshot x.2.backend) D ∧
      x.2.backend.state.immutableMemtables = []

section

variable {s : LsmSystem} {D : OrdMap Bytes Bytes}

theorem ends_logged (hlive : SnapshotDenotes (snapshot s.backend) D)
    (himm : s.backend.state.immutableMemtables = []) (pending : Pending) :
    Ends D (Layers.applyBatch D pending) (Lsm.advance (.logged pending) s) := by
  have hwritten := hlive.write pending
  rw [Lsm.advance, applyPending, bind_assoc, Effect.bind_apply_of_ok (modifyState_apply ..),
    bind_assoc, Effect.bind_apply_of_ok (Effect.get_apply _), pure_bind]
  split <;> exact .inl ⟨_, rfl, hwritten, himm⟩

theorem ends_flushing (hlive : SnapshotDenotes (snapshot s.backend) D)
    (himm : s.backend.state.immutableMemtables = [])
    (hnext : s.backend.state.activeMemtable = ∅ ∨ s.backend.state.nextSstableId + 1 < 2 ^ 64)
    (rest : List Bool) : Ends D D (Lsm.advance (.flushing rest) s) := by
  rw [Lsm.advance, beginFlush, bind_assoc, Effect.bind_apply_of_ok (Effect.get_apply s)]
  dsimp only
  split
  · exact .inl ⟨_, rfl, hlive, atPc_compactions himm rest⟩
  next hempty =>
    have hnext := hnext.resolve_left fun h ↦ hempty (OrdMap.isEmpty_iff.mpr h)
    have hadd : checkedAdd s.backend.state.nextSstableId 1 =
        .ok (s.backend.state.nextSstableId + 1) := if_pos hnext
    rw [bind_assoc, Effect.bind_apply_of_ok (modifyState_apply ..), hadd]
    refine .inl ⟨_, rfl, hlive.setAside s.backend.state.nextSstableId, ?_⟩
    change s.backend.state.immutableMemtables ++ _ = _
    rw [himm]
    rfl

theorem ends_setAside (hlive : SnapshotDenotes (snapshot s.backend) D) {memtable : Memtable}
    {generation : ℕ} (himm : s.backend.state.immutableMemtables = [(generation, memtable)])
    (hq : s.os.Quiet) (hfits : FlushFits s memtable generation) (rest : List Bool) :
    Ends D D (Lsm.advance (.setAside rest memtable generation) s) := by
  obtain ⟨⟨handle, manifest⟩, s', hwrite, -⟩ := writeFlush_of_quiet hq hfits
  obtain ⟨hholds, hstate, -⟩ := writeFlush_eq_ok hwrite
  rw [Lsm.advance, Effect.bind_apply_of_ok hwrite]
  refine .inl ⟨_, rfl, ?_, memtable, ?_, hholds⟩
  · change SnapshotDenotes (snapshot s'.backend) D
    rw [snapshot, hstate]
    exact hlive
  · exact (congrArg EngineState.immutableMemtables hstate).trans himm

theorem ends_written (hlive : SnapshotDenotes (snapshot s.backend) D) {memtable : Memtable}
    {generation : ℕ} (himm : s.backend.state.immutableMemtables = [(generation, memtable)])
    {handle : SstableHandle} (hholds : handle.Holds memtable.entries) (manifest : Manifest)
    (rest : List Bool) : Ends D D (Lsm.advance (.written rest generation handle manifest) s) := by
  have himm' : s.backend.state.immutableMemtables.eraseP (fun m ↦ m.1 = generation) = [] := by
    rw [himm, List.eraseP_cons_of_pos (by simp)]
  have hpublished := hlive.publish himm hholds
  rw [← himm'] at hpublished
  rw [Lsm.advance, publishFlush, bind_assoc, Effect.bind_apply_of_ok (modifyState_apply ..),
    bind_assoc, Effect.bind_apply_of_ok (Effect.get_apply _), pure_bind]
  split
  · exact .inl ⟨_, rfl, hpublished, himm'⟩
  · exact .inl ⟨_, rfl, hpublished, atPc_compactions himm' rest⟩

theorem ends_reserved (hlive : SnapshotDenotes (snapshot s.backend) D)
    (himm : s.backend.state.immutableMemtables = []) (rest : List Bool) (generation : ℕ) :
    Ends D D (Lsm.advance (.reserved rest s.backend.state.sstables generation) s) := by
  rw [Lsm.advance, Effect.bind_apply_of_ok (Effect.get_apply s)]
  rcases hwrite : writeMerged s.backend.path (writeOptions s.backend.options)
    s.backend.state.sstables generation s.os with ⟨e | fresh, os'⟩
  · rw [bind_io_of_error hwrite]
    exact .inr ⟨e, rfl, hlive, himm⟩
  · rw [bind_io_of_ok hwrite]
    exact .inl ⟨_, rfl, hlive, himm, SnapshotDenotes.merge hlive hwrite⟩

end

/-- **What a section does.** -/
theorem Inv.advance {r : SnapshotRun} (h : r.Inv) {plan : List Answer}
    (hclear : r.Unobstructed (.advance plan)) :
    Ends r.committed r.committedAfter (Lsm.advance r.pc (r.planned plan)) := by
  have hlive : SnapshotDenotes (snapshot (r.planned plan).backend) r.committed := h.live
  have hplace : AtPc (r.planned plan).backend r.committed r.pc := h.place
  rw [committedAfter]
  rw [Unobstructed] at hclear
  cases hpc : r.pc with
  | idle =>
    rw [hpc] at hplace
    exact .inl ⟨_, rfl, hlive, hplace⟩
  | logged pending =>
    rw [hpc] at hplace
    exact ends_logged hlive hplace pending
  | flushing rest =>
    rw [hpc] at hplace hclear
    exact ends_flushing hlive hplace hclear rest
  | setAside rest memtable generation =>
    rw [hpc] at hplace hclear
    obtain ⟨rfl, hfits⟩ := hclear
    exact ends_setAside hlive hplace rfl ⟨hfits.accepts, hfits.room, hfits.seq⟩ rest
  | written rest generation handle manifest =>
    rw [hpc] at hplace
    obtain ⟨memtable, himm, hholds⟩ := hplace
    exact ends_written hlive himm hholds manifest rest
  | compacting force rest =>
    rw [hpc] at hplace
    rw [Lsm.advance, pickSstables, bind_assoc, Effect.bind_apply_of_ok (Effect.get_apply _)]
    dsimp only
    split
    · exact .inl ⟨_, rfl, hlive, hplace, rfl⟩
    · exact .inl ⟨_, rfl, hlive, atPc_compactions hplace rest⟩
  | picked rest sstables =>
    rw [hpc] at hplace
    rw [Lsm.advance, reserveGeneration, bind_assoc, Effect.bind_apply_of_ok (Effect.get_apply _)]
    dsimp only
    rcases checkedAdd (r.planned plan).backend.state.nextSstableId 1 with e | next
    · exact .inr ⟨e, rfl, hlive, hplace.1⟩
    · exact .inl ⟨_, rfl, hlive, hplace⟩
  | reserved rest sstables generation =>
    rw [hpc] at hplace
    obtain ⟨himm, rfl⟩ := hplace
    exact ends_reserved hlive himm rest generation
  | renamed rest fresh =>
    rw [hpc] at hplace
    rw [Lsm.advance]
    rcases hsync : syncParentDir (r.planned plan).os with ⟨e | _, os'⟩
    · rw [bind_io_of_error hsync]
      exact .inr ⟨e, rfl, hlive, hplace.1⟩
    · rw [bind_io_of_ok hsync]
      exact .inl ⟨_, rfl, hlive, hplace⟩
  | durable rest fresh =>
    rw [hpc] at hplace
    exact .inl ⟨_, rfl, hlive, hplace⟩
  | switched rest fresh =>
    rw [hpc] at hplace
    refine .inl ⟨_, rfl, hplace.2, ?_⟩
    cases rest <;> exact hplace.1

/-- **Every unobstructed step keeps the invariant.** -/
theorem Inv.step {r r' : SnapshotRun} {a : SnapshotStep} (h : r.Inv) (hclear : r.Unobstructed a)
    (hs : r.step a = some r') : r'.Inv := by
  cases a with
  | commit pending plan =>
    rw [SnapshotRun.step] at hs
    split at hs
    next hpc =>
      have himm : r.sys.backend.state.immutableMemtables = [] := by
        have hplace := h.place
        rwa [hpc] at hplace
      have hbackend := (appendRecord_touches pending (r.planned plan)).1
      split at hs
      · obtain rfl := Option.some.inj hs
        exact h
      · split at hs
        next sys happend =>
          rw [happend] at hbackend
          obtain rfl := Option.some.inj hs
          refine ⟨h.readers, hbackend ▸ h.live, ?_⟩
          exact (congrArg (fun b ↦ b.state.immutableMemtables) hbackend).trans himm
        next e sys happend =>
          rw [happend] at hbackend
          obtain rfl := Option.some.inj hs
          refine ⟨h.readers, hbackend ▸ h.live, ?_⟩
          rw [hpc]
          exact (congrArg (fun b ↦ b.state.immutableMemtables) hbackend).trans himm
    next => cases hs
  | forceCompact =>
    rw [SnapshotRun.step] at hs
    split at hs
    next hpc =>
      obtain rfl := Option.some.inj hs
      refine ⟨h.readers, h.live, ?_⟩
      have hplace := h.place
      rwa [hpc] at hplace
    next => cases hs
  | advance plan =>
    have hends := h.advance hclear
    rw [SnapshotRun.step] at hs
    split at hs
    next pc sys hadvance =>
      rw [hadvance] at hends
      obtain rfl := Option.some.inj hs
      obtain ⟨_, hpc, hlive, hplace⟩ | ⟨_, ⟨⟩, -⟩ := hends
      obtain rfl := Except.ok.inj hpc
      exact ⟨h.readers, hlive, hplace⟩
    next e sys hadvance =>
      rw [hadvance] at hends
      obtain rfl := Option.some.inj hs
      obtain ⟨_, ⟨⟩, -⟩ | ⟨_, -, hlive, himm⟩ := hends
      exact ⟨h.readers, hlive, himm⟩
  | snapshot =>
    obtain rfl := Option.some.inj hs
    refine ⟨fun x hx ↦ ?_, h.live, h.place⟩
    rcases List.mem_append.mp hx with hx | hx
    · exact h.readers x hx
    · obtain rfl := List.mem_singleton.mp hx
      exact h.live

/-- **Snapshot isolation.** In every run of an opened engine in which no flush fails with its
memtable set aside, every snapshot reads what was committed when it was taken. -/
theorem isolated_of_unobstructed (r : SnapshotRun) (hr : r.Opened) (steps : List SnapshotStep)
    (hclear : Run.EachStep step Unobstructed r steps) (r' : SnapshotRun)
    (hrun : Run.run step r steps = some r') : r'.Isolated :=
  (Run.invariant (fun _ _ _ ↦ Inv.step) hr.inv hclear hrun).isolated

end SnapshotRun

end

/-! ## A fresh database -/

namespace Lsm.Sample

scoped instance : Lz4 := Lz4.stored

/-- The size of a filter for one or two items. -/
scoped instance : BloomSizing where
  bits n := if n = 1 then 10 else 20
  hashes n _ := if n = 1 then 44 else 22

/-- The manifest of an empty database. -/
def freshManifest : Manifest := placeManifest 1 [] Container.bodyStart

/-- The file of an empty database. -/
def freshFile : Bytes :=
  Container.encodeSlot 1 Container.bodyStart freshManifest.encode ++
    (List.replicate Container.headerSlotLen 0 ++ freshManifest.encode)

/-- Flush after every commit; merge after every other flush. -/
def eagerOptions : LsmOptions := ⟨1, 2, 16, true⟩

/-- An empty database that is open. -/
def freshSystem (options : LsmOptions) : LsmSystem where
  os :=
    { inodes := fun i ↦ if i = 0 then ⟨freshFile, freshFile⟩ else {}
      next := 1
      names := fun name ↦ if name = "db" then some 0 else none }
  backend :=
    { path := "db"
      options
      state :=
        { activeMemtable := ∅
          immutableMemtables := []
          sstables := []
          nextSstableId := 1
          walRegionStart := freshManifest.walRegionStart
          manifestLen := freshManifest.encode.length }
      container := { file := 0, headerSeq := 1, headerSlot := 0 } }

theorem denotes_freshSystem (options : LsmOptions) :
    SnapshotDenotes (snapshot (freshSystem options).backend) ∅ :=
  ⟨[], .nil, fun _ ↦ rfl⟩

/-- A batch that puts one value into the table `t`. -/
def putOne (key value : Bytes) : Pending :=
  OrdMap.insert ∅ (Keys.prefixBytes "t" ++ key) (some value)

/-- The engine with an empty database, and no reader. -/
def freshRun : SnapshotRun := ⟨freshSystem eagerOptions, .idle, ∅, []⟩

theorem opened_freshRun : freshRun.Opened := ⟨rfl, rfl, denotes_freshSystem _, rfl⟩

end Lsm.Sample

namespace SnapshotRun

open Lsm.Sample

/-- A commit, a flush, and a snapshot between the sections of the flush. -/
def flushSteps : List SnapshotStep :=
  [.commit (putOne [7] [1]) [], .advance [], .advance [], .snapshot, .advance [], .snapshot,
    .advance [], .snapshot]

/-- Three snapshots taken during one flush read the value that was committed. -/
theorem isolated_of_unobstructed_flush :
    ∃ r, Run.run step freshRun flushSteps = some r ∧ r.readers.length = 3 ∧ r.Isolated := by
  have hlen : (Run.run step freshRun flushSteps).any (fun r ↦ r.readers.length = 3) = true := by
    decide +kernel
  obtain ⟨r, hrun, hlen⟩ := (Option.any_eq_true _ _).mp hlen
  refine ⟨r, hrun, by simpa using hlen, ?_⟩
  exact isolated_of_unobstructed freshRun opened_freshRun flushSteps (by decide +kernel) r hrun

/-- A flush fails with its memtable set aside, and the next one goes through. -/
def stuckSteps : List SnapshotStep :=
  [.commit (putOne [7] [1]) [], .advance [], .advance [], .advance [.fail 0],
    .commit (putOne [7] [2]) [], .advance [], .advance [], .advance [], .advance [], .snapshot]

/-- What a snapshot reads, and what was committed. -/
def readsStale (r : SnapshotRun) : Bool :=
  r.readers.any fun x ↦ ((ReadTx.mk x.1).get "t" [7]).toOption == some (some [1]) &&
    (Keys.tableOf x.2 (Keys.prefixBytes "t")).get? [7] == some [2]

/-- **After a flush that failed, a snapshot reads a value that was overwritten.** -/
theorem not_isolated :
    ¬∀ (r : SnapshotRun), r.Opened → ∀ (steps : List SnapshotStep) (r' : SnapshotRun),
      Run.run step r steps = some r' → r'.Isolated := by
  intro h
  have hstale : (Run.run step freshRun stuckSteps).any readsStale = true := by decide +kernel
  obtain ⟨r, hrun, hstale⟩ := (Option.any_eq_true _ _).mp hstale
  obtain ⟨x, hx, hreads⟩ := List.any_eq_true.mp hstale
  rw [Bool.and_eq_true, beq_iff_eq, beq_iff_eq] at hreads
  have hget := (h freshRun opened_freshRun stuckSteps r hrun x hx).get_eq "t" (by decide) [7]
  rw [hget, hreads.2] at hreads
  cases hreads.1

end SnapshotRun
