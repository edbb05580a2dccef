import Bkndb.Lsm.ClientRun

/-!
# Checking the database

`engine/ops.rs`: `verify_integrity` reads every stored byte and checks it, while commits, flushes
and compactions go on. It takes a snapshot and checks the SSTables of it without any lock, and then,
with the container locked, the header, the manifest and the log.

## Two locks

The container's lock keeps the file as it is from the header to the end of the check. Where the log
begins is read from the state, which has a lock of its own: a flush writes the file in one section
and tells the state in a later one, and a compaction switches first the container and then the
state. In between, the state names the beginning of a log that the file does not have any more.

## Main results

* `Inv.step`: every step of the check and of the writer keeps the invariant, in every interleaving.
* `passes_of_timely`: no check of an undamaged database fails, unless it reads the beginning of the
  log between two such sections.
* `not_passes_written`, `panics_switched`: it does fail there.
-/

open Container Layers

structure IntegrityReport where
  sstablesChecked : ℕ := 0
  /-- Blocks whose checksum was recomputed. -/
  blocksVerified : ℕ := 0
  legacyBlocksUnchecked : ℕ := 0
  entries : ℕ := 0
  walRecords : ℕ := 0

/-- Where a check is. The container is locked from `locked` to `replayed`. -/
inductive VerifyPc where
  | start
  | snapshotted (snap : ReadSnapshot)
  /-- The SSTables are checked. -/
  | checked (report : IntegrityReport)
  | locked (report : IntegrityReport)
  /-- The header and the manifest are checked. -/
  | headerRead (report : IntegrityReport)
  | startRead (report : IntegrityReport) (walStart : ℕ)
  | replayed (report : IntegrityReport) (records : List WalRecord) (validEnd : ℕ)
  | done (result : Except BknError IntegrityReport)

namespace Lsm

variable [Lz4] [BloomSizing]

omit [BloomSizing] in
/-- Check the SSTables of a snapshot. -/
def verifySstables : List SstableHandle → IntegrityReport → Except BknError IntegrityReport
  | [], report => .ok report
  | sst :: rest, report => do
    let counts ← sst.verify
    verifySstables rest { report with
      sstablesChecked := report.sstablesChecked + 1
      blocksVerified := report.blocksVerified + counts.blocksVerified
      legacyBlocksUnchecked := report.legacyBlocksUnchecked + counts.blocksUnchecked
      entries := report.entries + counts.entries }

/-- Check the header and the manifest of a container. -/
def verifyHeader (file : Bytes) : Except BknError Unit := do
  let slot ← Container.readHeader file
  let slot ← Except.ofOption (.corruption "database header is missing") slot
  let bytes ← Container.readManifest file slot
  let _ ← Except.ofOption (.corruption "manifest undecodable") (Manifest.decode bytes)

/-- The log has to reach to the end of the file. The message says how much of it is left over, and
computing that overflows if the log begins behind the end. -/
def verifyEnd (report : IntegrityReport) (records : List WalRecord) (validEnd fileLen : ℕ) :
    Except BknError IntegrityReport :=
  if validEnd = fileLen then .ok { report with walRecords := records.length }
  else if validEnd ≤ fileLen then
    .error (.corruption ("write-ahead log has " ++ toString (fileLen - validEnd) ++
      " trailing bytes that are not a valid frame"))
  else .error (.panic "attempt to subtract with overflow")

/-- The next step of a check; a finished one begins again. No call fails while it reads. -/
def verifyAdvance (s : LsmSystem) : VerifyPc → VerifyPc
  | .start | .done _ => .snapshotted (snapshot s.backend)
  | .snapshotted snap =>
    match verifySstables snap.sstables {} with
    | .ok report => .checked report
    | .error e => .done (.error e)
  | .checked report => .locked report
  | .locked report =>
    match verifyHeader (s.os.contents s.backend.container.file) with
    | .ok () => .headerRead report
    | .error e => .done (.error e)
  | .headerRead report => .startRead report s.backend.state.walRegionStart
  | .startRead report walStart =>
    let (records, validEnd) := Wal.replayFrom (s.os.contents s.backend.container.file) walStart
    .replayed report records validEnd
  | .replayed report records validEnd =>
    .done (verifyEnd report records validEnd (s.os.contents s.backend.container.file).length)

end Lsm

/-- The check has the container's lock. -/
def VerifyPc.HoldsLock : VerifyPc → Prop
  | .locked _ | .headerRead _ | .startRead .. | .replayed .. => True
  | .start | .snapshotted _ | .checked _ | .done _ => False

instance : (check : VerifyPc) → Decidable check.HoldsLock
  | .locked _ | .headerRead _ | .startRead .. | .replayed .. => .isTrue trivial
  | .start | .snapshotted _ | .checked _ | .done _ => .isFalse id

/-- The next step reads where the log begins. -/
def VerifyPc.ReadsStart : VerifyPc → Prop
  | .headerRead _ => True
  | _ => False

instance : (check : VerifyPc) → Decidable check.ReadsStart
  | .headerRead _ => .isTrue trivial
  | .start | .snapshotted _ | .checked _ | .locked _ | .startRead .. | .replayed .. | .done _ =>
    .isFalse id

/-- The next section needs the container's lock. -/
def WriterPc.NeedsLock : WriterPc → Prop
  | .setAside .. | .durable .. => True
  | _ => False

instance : (pc : WriterPc) → Decidable pc.NeedsLock
  | .setAside .. | .durable .. => .isTrue trivial
  | .idle | .logged _ | .flushing _ | .written .. | .compacting .. | .picked .. | .reserved .. |
    .renamed .. | .switched .. => .isFalse id

/-- The container has changed, and the state has not been told yet. -/
def WriterPc.Between : WriterPc → Prop
  | .written .. | .switched .. => True
  | _ => False

instance : (pc : WriterPc) → Decidable pc.Between
  | .written .. | .switched .. => .isTrue trivial
  | .idle | .logged _ | .flushing _ | .setAside .. | .compacting .. | .picked .. | .reserved .. |
    .renamed .. | .durable .. => .isFalse id

/-- The path names the new file, and the container is still the old one. -/
def WriterPc.OnOldFile : WriterPc → Prop
  | .renamed .. | .durable .. => True
  | _ => False

section

variable [Lz4] [BloomSizing]

open Lsm

/-- A writer and a check beside it. -/
structure VerifyRun where
  sys : LsmSystem
  pc : WriterPc
  check : VerifyPc

inductive VerifyStep where
  | commit (pending : Pending)
  | forceCompact
  /-- The writer runs its next section. -/
  | advance
  /-- The check takes its next step. -/
  | verify

namespace VerifyRun

def step (r : VerifyRun) : VerifyStep → Option VerifyRun
  | .commit pending =>
    match r.pc with
    | .idle =>
      if pending.isEmpty then some r
      else if r.check.HoldsLock then none
      else
        match appendRecord pending r.sys with
        | (.ok (), sys) => some { r with sys, pc := .logged pending }
        | (.error _, sys) => some { r with sys }
    | _ => none
  | .forceCompact =>
    match r.pc with
    | .idle => some { r with pc := .flushing [true] }
    | _ => none
  | .advance =>
    if r.check.HoldsLock ∧ r.pc.NeedsLock then none
    else
      match Lsm.advance r.pc r.sys with
      | (.ok pc, sys) => some { r with sys, pc }
      | (.error _, sys) => some { r with sys, pc := .idle }
  | .verify => some { r with check := verifyAdvance r.sys r.check }

/-- A database that was just made, and no check yet. -/
structure Opened (r : VerifyRun) : Prop where
  made : Made r.sys
  pc : r.pc = .idle
  check : r.check = .start

/-- No call of the operating system fails. -/
def Undamaged (r : VerifyRun) (a : VerifyStep) : Prop :=
  ∀ r', step r a = some r' → r'.sys.os.failed = false

instance (r : VerifyRun) (a : VerifyStep) : Decidable (Undamaged r a) :=
  decidable_of_iff ((step r a).all fun r' ↦ !r'.sys.os.failed) (by
    rw [Option.all_eq_true]
    simp [Undamaged])

/-- No flush is refused, and the beginning of the log is not read between the section that changes
the container and the one that tells the state. -/
def Timely (r : VerifyRun) : VerifyStep → Prop
  | .advance => Unrefused r.sys r.pc ∨ MayGiveUp r.pc
  | .verify => r.check.ReadsStart → ¬r.pc.Between
  | .commit _ | .forceCompact => True

instance (r : VerifyRun) : (a : VerifyStep) → Decidable (Timely r a)
  | .advance => inferInstanceAs (Decidable (_ ∨ _))
  | .verify => inferInstanceAs (Decidable (_ → ¬_))
  | .commit _ | .forceCompact => .isTrue trivial

/-- **No false alarm.** A check that has ended has passed. -/
def Passes (r : VerifyRun) : Prop :=
  ∀ result, r.check = .done result → ∃ report, result = .ok report

/-! ## What a check finds -/

omit [BloomSizing] in
theorem verifySstables_ok {sstables : List SstableHandle} (h : ∀ sst ∈ sstables, ∃ es, sst.Holds es)
    (report : IntegrityReport) : ∃ report', verifySstables sstables report = .ok report' := by
  induction sstables generalizing report with
  | nil => exact ⟨report, rfl⟩
  | cons sst rest ih =>
    obtain ⟨es, hholds⟩ := h sst List.mem_cons_self
    obtain ⟨counts, hverify, -⟩ := hholds.verify
    rw [verifySstables, hverify, Except.ok_bind]
    exact ih (fun sst' hmem ↦ h sst' (List.mem_cons_of_mem _ hmem)) _

omit [BloomSizing] in
theorem verifyHeader_file (v : Image) : verifyHeader v.file = .ok () := by
  rw [verifyHeader, v.readHeader_file, Except.ok_bind]
  change (Container.readManifest v.file v.header >>= _) = _
  rw [v.readManifest_file, Except.ok_bind, Manifest.decode_encode v.valid]
  rfl

omit [BloomSizing] in
theorem replayFrom_of_clean {v : Image} (h : v.Clean) :
    (Wal.replayFrom v.file v.manifest.walRegionStart).2 = v.file.length := by
  rw [v.replayFrom_file, v.start, Image.file_of_clean h, List.length_append]

/-! ## The invariant

While the check goes on, the engine is at one of its places, with the container a well-formed file
whose log reaches to its end. The state says where the log begins, but for two places. -/

/-- The container can be checked. -/
def Legible (s : LsmSystem) (pc : WriterPc) : Prop :=
  ∃ v : Image, s.os.contents s.backend.container.file = v.file ∧ v.Clean ∧
    (pc.Between ∨ s.backend.state.walRegionStart = v.manifest.walRegionStart)

/-- What the check has read is right. -/
def Sound (s : LsmSystem) : VerifyPc → Prop
  | .snapshotted snap => ∀ sst ∈ snap.sstables, ∃ es, sst.Holds es
  | .startRead _ walStart =>
    (Wal.replayFrom (s.os.contents s.backend.container.file) walStart).2 =
      (s.os.contents s.backend.container.file).length
  | .replayed _ _ validEnd => validEnd = (s.os.contents s.backend.container.file).length
  | .done result => ∃ report, result = .ok report
  | .start | .checked _ | .locked _ | .headerRead _ => True

structure Inv (r : VerifyRun) : Prop where
  quiet : r.sys.os.Quiet
  place : ∃ D, AtPlace true r.sys D r.pc
  legible : Legible r.sys r.pc
  sound : Sound r.sys r.check

omit [BloomSizing] in
theorem AtRest.legible {s : LsmSystem} {D : OrdMap Bytes Bytes} (h : AtRest true s D)
    (pc : WriterPc) : Legible s pc := by
  cases h with
  | intact v h htidy =>
    obtain ⟨himm, hclean⟩ := htidy rfl
    exact ⟨v, h.disk.contents, hclean, .inr (h.memory.books himm).start⟩
  | detached htidy h => cases htidy

omit [BloomSizing] in
/-- At every place but those where the name has a new file and the container is the old one. -/
theorem AtPlace.legible {s : LsmSystem} {D : OrdMap Bytes Bytes} {pc : WriterPc}
    (h : AtPlace true s D pc) (hold : ¬pc.OnOldFile) : Legible s pc := by
  cases pc with
  | idle => exact AtRest.legible h _
  | logged pending =>
    obtain ⟨v, hlogged, hclean, himm⟩ := h
    exact ⟨_, hlogged.disk.contents, rfl, .inr (hlogged.memory.books (himm rfl)).start⟩
  | flushing rest => exact AtRest.legible h _
  | setAside rest memtable generation =>
    obtain ⟨v, hflushing, hclean⟩ := h
    exact ⟨v, hflushing.disk.contents, hclean rfl, .inr hflushing.books.start⟩
  | written rest generation handle manifest =>
    obtain ⟨v, hwritten⟩ := h
    exact ⟨v, hwritten.disk.contents, hwritten.clean, .inl trivial⟩
  | compacting force rest => exact AtRest.legible h.rest _
  | picked rest sstables => exact AtRest.legible h.rest _
  | reserved rest sstables generation => exact AtRest.legible h.rest _
  | renamed rest fresh => exact absurd trivial hold
  | durable rest fresh => exact absurd trivial hold
  | switched rest fresh =>
    obtain ⟨⟨⟨v, himage⟩, -⟩, hcontainer⟩ := h
    refine ⟨v, ?_, himage.clean, .inl trivial⟩
    rw [hcontainer]
    exact himage.contents

/-- A merge leaves every file but the temporary one as it is. -/
theorem contents_writeMerged {path : String} {os : Os} {i : ℕ} (h : Held os path i)
    (opts : Sst.WriteOptions) (sstables : List SstableHandle) (generation : ℕ) :
    (writeMerged path opts sstables generation os).2.contents i = os.contents i := by
  rw [writeMerged]
  set entries := MergeIter.merged (sstables.reverse.map fun h ↦ h.cursor .unbounded .unbounded)
  set n := (sstables.map SstableHandle.estimatedEntries).sum % 2 ^ 64
  have hbeside := beside_writeFreshContainer (compactionTmpPath path) generation entries n opts os
  rcases hfresh : writeFreshContainer (compactionTmpPath path) generation entries n opts os with
    ⟨e | fresh, os₁⟩
  · rw [hfresh] at hbeside
    rw [Effect.bind_apply_of_error hfresh]
    exact h.contents hbeside
  · rw [hfresh] at hbeside
    rw [Effect.bind_apply_of_ok hfresh, ← h.contents hbeside]
    -- the lock and the rename do not touch what is in files
    have htrans : ∀ os₁ os₂ os₃ : Os, os₂.inodes = os₁.inodes → os₃.inodes = os₂.inodes →
        os₃.inodes = os₁.inodes := fun _ _ _ h h' ↦ h'.trans h
    have hrest : Effect.Steps (fun os os' : Os ↦ os'.inodes = os.inodes)
        (Os.call (BknError.databaseLocked path) >>= fun _ ↦
          Os.rename ioErr (compactionTmpPath path) path >>= fun _ ↦ pure fresh) := by
      refine Effect.Steps.bind htrans (fun os ↦ ?_) fun _ ↦
        Effect.Steps.bind htrans (fun os ↦ ?_) fun _ os ↦ rfl
      · rcases Os.call_cases (BknError.databaseLocked path) os with ⟨hcall, -⟩ | ⟨hcall, -⟩ <;>
          rw [hcall] <;> rfl
      · rw [Os.rename]
        split <;> rfl
    exact congrArg (fun inodes ↦ (inodes i).contents) (hrest os₁)

/-- A section that does not need the lock leaves the container and its file. -/
theorem contents_advance {s : LsmSystem} {D : OrdMap Bytes Bytes} {pc : WriterPc}
    (h : AtPlace true s D pc) (hlock : ¬pc.NeedsLock) :
    (Lsm.advance pc s).2.backend.container = s.backend.container ∧
      (Lsm.advance pc s).2.os.contents s.backend.container.file =
        s.os.contents s.backend.container.file := by
  cases pc with
  | idle => exact ⟨rfl, rfl⟩
  | logged pending =>
    rw [Lsm.advance, applyPending, bind_assoc, Effect.bind_apply_of_ok (modifyState_apply ..),
      bind_assoc, Effect.bind_apply_of_ok (Effect.get_apply _), pure_bind]
    split <;> exact ⟨rfl, rfl⟩
  | flushing rest =>
    rw [Lsm.advance, beginFlush, bind_assoc, Effect.bind_apply_of_ok (Effect.get_apply s)]
    dsimp only
    split
    · exact ⟨rfl, rfl⟩
    · rw [bind_assoc, Effect.bind_apply_of_ok (modifyState_apply ..)]
      cases checkedAdd s.backend.state.nextSstableId 1 <;> exact ⟨rfl, rfl⟩
  | setAside rest memtable generation => exact absurd trivial hlock
  | written rest generation handle manifest =>
    rw [Lsm.advance, publishFlush, bind_assoc, Effect.bind_apply_of_ok (modifyState_apply ..),
      bind_assoc, Effect.bind_apply_of_ok (Effect.get_apply _), pure_bind]
    split <;> exact ⟨rfl, rfl⟩
  | compacting force rest =>
    rw [Lsm.advance, pickSstables, bind_assoc, Effect.bind_apply_of_ok (Effect.get_apply s)]
    dsimp only
    split <;> exact ⟨rfl, rfl⟩
  | picked rest sstables =>
    rw [Lsm.advance, reserveGeneration, bind_assoc, Effect.bind_apply_of_ok (Effect.get_apply s)]
    dsimp only
    cases checkedAdd s.backend.state.nextSstableId 1 <;> exact ⟨rfl, rfl⟩
  | reserved rest sstables generation =>
    have hcontents := contents_writeMerged h.rest.held (writeOptions s.backend.options) sstables
      generation
    rw [Lsm.advance, Effect.bind_apply_of_ok (Effect.get_apply s)]
    rcases hrun : writeMerged s.backend.path (writeOptions s.backend.options) sstables generation
      s.os with ⟨e | fresh, os'⟩
    · rw [hrun] at hcontents
      rw [bind_io_of_error hrun]
      exact ⟨rfl, hcontents⟩
    · rw [hrun] at hcontents
      rw [bind_io_of_ok hrun]
      exact ⟨rfl, hcontents⟩
  | renamed rest fresh =>
    rw [Lsm.advance]
    rcases hsync : syncParentDir s.os with ⟨r, os'⟩
    have hcontents : os'.contents s.backend.container.file =
        s.os.contents s.backend.container.file := by
      rw [Os.contents, Os.contents, (syncParentDir_cases hsync).1]
    rcases r with e | u
    · rw [bind_io_of_error hsync]
      exact ⟨rfl, hcontents⟩
    · rw [bind_io_of_ok hsync]
      exact ⟨rfl, hcontents⟩
  | durable rest fresh => exact absurd trivial hlock
  | switched rest fresh => exact ⟨rfl, rfl⟩

omit [Lz4] [BloomSizing] in
theorem not_onOldFile_compactions (rest : List Bool) : ¬(WriterPc.compactions rest).OnOldFile := by
  cases rest <;> exact id

theorem onOldFile_of_advance {pc pc' : WriterPc} {s s' : LsmSystem}
    (h : Lsm.advance pc s = (.ok pc', s')) (hold : pc'.OnOldFile) :
    (∃ rest sstables generation, pc = .reserved rest sstables generation) ∨
      ∃ rest fresh, pc = .renamed rest fresh := by
  have hnext := next_of_advance h
  have hcompactions := not_onOldFile_compactions
  cases pc with
  | idle =>
    obtain rfl := hnext
    exact hold.elim
  | logged _ => rcases hnext with rfl | rfl <;> exact hold.elim
  | flushing rest =>
    obtain rfl | ⟨_, _, rfl⟩ := hnext
    · exact absurd hold (hcompactions rest)
    · exact hold.elim
  | setAside _ _ _ =>
    obtain ⟨_, _, rfl⟩ := hnext
    exact hold.elim
  | written rest _ _ _ =>
    obtain rfl | rfl := hnext
    · exact absurd hold (hcompactions rest)
    · exact hold.elim
  | compacting _ rest =>
    obtain rfl | ⟨_, rfl⟩ := hnext
    · exact absurd hold (hcompactions rest)
    · exact hold.elim
  | picked _ _ =>
    obtain ⟨_, rfl⟩ := hnext
    exact hold.elim
  | reserved rest sstables generation => exact .inl ⟨rest, sstables, generation, rfl⟩
  | renamed rest fresh => exact .inr ⟨rest, fresh, rfl⟩
  | durable _ _ =>
    obtain rfl := hnext
    exact hold.elim
  | switched rest _ =>
    obtain rfl := hnext
    exact absurd hold (hcompactions rest)

theorem backend_advance_reserved {rest : List Bool} {sstables : List SstableHandle} {generation : ℕ}
    (s : LsmSystem) :
    (Lsm.advance (.reserved rest sstables generation) s).2.backend = s.backend := by
  rw [Lsm.advance, Effect.bind_apply_of_ok (Effect.get_apply s)]
  rcases hrun : writeMerged s.backend.path (writeOptions s.backend.options) sstables generation
    s.os with ⟨e | fresh, os'⟩
  · rw [bind_io_of_error hrun]
  · rw [bind_io_of_ok hrun]
    rfl

theorem backend_advance_renamed {rest : List Bool} {fresh : FreshContainer} (s : LsmSystem) :
    (Lsm.advance (.renamed rest fresh) s).2.backend = s.backend := by
  rw [Lsm.advance]
  rcases hsync : syncParentDir s.os with ⟨e | u, os'⟩
  · rw [bind_io_of_error hsync]
  · rw [bind_io_of_ok hsync]
    rfl

/-- **The container stays legible.** -/
theorem Legible.advance {s s' : LsmSystem} {D D' : OrdMap Bytes Bytes} {pc pc' : WriterPc}
    (h : Legible s pc) (hplace : AtPlace true s D pc) (hrun : Lsm.advance pc s = (.ok pc', s'))
    (hplace' : AtPlace true s' D' pc') : Legible s' pc' := by
  by_cases hold : pc'.OnOldFile
  · -- the container is the old one still, and the state has not been told of the new one
    have hkept : ¬pc.NeedsLock → s'.backend = s.backend → ¬pc.Between → Legible s' pc' := by
      intro hlock hbackend hbetween
      obtain ⟨v, hcontents, hclean, hstart⟩ := h
      have hsame := (contents_advance hplace hlock).2
      rw [hrun] at hsame
      refine ⟨v, ?_, hclean, .inr ?_⟩
      · rw [hbackend]
        exact hsame.trans hcontents
      · rw [hbackend]
        exact hstart.resolve_left hbetween
    obtain ⟨rest, sstables, generation, rfl⟩ | ⟨rest, fresh, rfl⟩ := onOldFile_of_advance hrun hold
    · exact hkept id (by rw [← backend_advance_reserved s, hrun]) id
    · exact hkept id (by rw [← backend_advance_renamed s, hrun]) id
  · exact AtPlace.legible hplace' hold

/-! ## Steps -/

omit [BloomSizing] in
/-- What a check without the lock has read does not depend on the file. -/
theorem Sound.of_not_holdsLock {s s' : LsmSystem} {check : VerifyPc} (h : Sound s check)
    (hlock : ¬check.HoldsLock) : Sound s' check := by
  cases check with
  | locked _ | headerRead _ | startRead _ _ | replayed _ _ _ => exact absurd trivial hlock
  | _ => exact h

omit [BloomSizing] in
theorem Sound.congr {s s' : LsmSystem} {check : VerifyPc} (h : Sound s check)
    (hcontents : s'.os.contents s'.backend.container.file =
      s.os.contents s.backend.container.file) : Sound s' check := by
  cases check with
  | startRead report walStart =>
    rw [Sound, hcontents]
    exact h
  | replayed report records validEnd =>
    rw [Sound, hcontents]
    exact h
  | _ => exact h

variable {r r' : VerifyRun} {a : VerifyStep}

theorem Inv.commit {pending : Pending} (h : r.Inv) (hok : r.Undamaged (.commit pending))
    (hs : r.step (.commit pending) = some r') : r'.Inv := by
  have hfailed := hok r' hs
  rw [step] at hs
  split at hs
  next hpc =>
    split at hs
    next =>
      obtain rfl := Option.some.inj hs
      exact h
    split at hs
    next => cases hs
    next hlock =>
      obtain ⟨D, hplace⟩ := h.place
      rw [hpc] at hplace
      split at hs
      next sys hrun =>
        obtain rfl := Option.some.inj hs
        obtain ⟨hq, ⟨-, hlogged⟩ | ⟨_, ⟨⟩, -⟩⟩ :=
          AtRest.append_undisturbed hplace h.quiet hrun hfailed
        exact ⟨hq, ⟨D, hlogged⟩, AtPlace.legible hlogged id, h.sound.of_not_holdsLock hlock⟩
      next e sys hrun =>
        obtain rfl := Option.some.inj hs
        obtain ⟨hq, ⟨⟨⟩, -⟩ | ⟨_, -, rfl, -⟩⟩ :=
          AtRest.append_undisturbed hplace h.quiet hrun hfailed
        exact ⟨hq, h.place, h.legible, h.sound⟩
  next => cases hs

theorem Inv.advance (h : r.Inv) (hok : r.Undamaged .advance) (htimely : r.Timely .advance)
    (hs : r.step .advance = some r') : r'.Inv := by
  have hfailed := hok r' hs
  rw [step] at hs
  split at hs
  next => cases hs
  next hlock =>
    obtain ⟨D, hplace⟩ := h.place
    have hq := hplace.quiet_advance h.quiet
    have hsound : Sound (Lsm.advance r.pc r.sys).2 r.check := by
      by_cases hholds : r.check.HoldsLock
      · obtain ⟨hcontainer, hcontents⟩ :=
          contents_advance hplace fun hneeds ↦ hlock ⟨hholds, hneeds⟩
        exact h.sound.congr (by rw [hcontainer, hcontents])
      · exact h.sound.of_not_holdsLock hholds
    split at hs
    next pc sys hrun =>
      obtain rfl := Option.some.inj hs
      rw [hrun] at hq hsound
      have hgoes : Goes true r.sys r.pc := ⟨htimely.imp_right fun hmay ↦ ⟨rfl, hmay⟩, by
        rw [hrun]
        exact hfailed⟩
      obtain ⟨pc', s', hrun', hplace'⟩ | ⟨e, s', hrun', -⟩ := hplace.goes h.quiet hgoes
      · obtain ⟨hpc, rfl⟩ := Prod.mk.inj (hrun.symm.trans hrun')
        obtain rfl := Except.ok.inj hpc
        exact ⟨hq, ⟨_, hplace'⟩, h.legible.advance hplace hrun hplace', hsound⟩
      · cases hrun.symm.trans hrun'
    next e sys hrun =>
      obtain rfl := Option.some.inj hs
      rw [hrun] at hq hsound
      have hgoes : Goes true r.sys r.pc := ⟨htimely.imp_right fun hmay ↦ ⟨rfl, hmay⟩, by
        rw [hrun]
        exact hfailed⟩
      obtain ⟨pc', s', hrun', -⟩ | ⟨e', s', hrun', hrest, -⟩ := hplace.goes h.quiet hgoes
      · cases hrun.symm.trans hrun'
      · obtain ⟨-, rfl⟩ := Prod.mk.inj (hrun.symm.trans hrun')
        exact ⟨hq, ⟨D, hrest⟩, AtRest.legible hrest _, hsound⟩

/-- **A step of the check** reads what is right, unless it comes between two sections. -/
theorem Inv.verify (h : r.Inv) (htimely : r.Timely .verify) :
    Sound r.sys (verifyAdvance r.sys r.check) := by
  have hsound := h.sound
  obtain ⟨v, hcontents, hclean, hstart⟩ := h.legible
  have hbegin : Sound r.sys (.snapshotted (snapshot r.sys.backend)) := by
    obtain ⟨D, hplace⟩ := h.place
    obtain ⟨tables, hholds, -⟩ := AtPlace.live hplace
    intro sst hmem
    obtain ⟨t, -, ht⟩ := hholds.exists_right hmem
    exact ⟨_, ht⟩
  cases hcheck : r.check with
  | start => exact hbegin
  | done result => exact hbegin
  | snapshotted snap =>
    rw [hcheck] at hsound
    obtain ⟨report, hreport⟩ := verifySstables_ok hsound {}
    rw [verifyAdvance, hreport]
    trivial
  | checked report => trivial
  | locked report =>
    rw [verifyAdvance, hcontents, verifyHeader_file]
    trivial
  | headerRead report =>
    have hbetween : ¬r.pc.Between := htimely (by rw [hcheck]; trivial)
    change (Wal.replayFrom (r.sys.os.contents _) r.sys.backend.state.walRegionStart).2 = _
    rw [hstart.resolve_left hbetween, hcontents]
    exact replayFrom_of_clean hclean
  | startRead report walStart =>
    rw [hcheck] at hsound
    exact hsound
  | replayed report records validEnd =>
    rw [hcheck] at hsound
    obtain rfl : validEnd = _ := hsound
    rw [verifyAdvance, verifyEnd, if_pos rfl]
    exact ⟨_, rfl⟩

/-- **Every step keeps the invariant**, whoever takes it. -/
theorem Inv.step (h : r.Inv) (hcond : r.Undamaged a ∧ r.Timely a) (hs : r.step a = some r') :
    r'.Inv := by
  obtain ⟨hok, htimely⟩ := hcond
  cases a with
  | commit pending => exact h.commit hok hs
  | advance => exact h.advance hok htimely hs
  | verify =>
    obtain rfl := Option.some.inj hs
    exact ⟨h.quiet, h.place, h.legible, h.verify htimely⟩
  | forceCompact =>
    rw [VerifyRun.step] at hs
    split at hs
    next hpc =>
      obtain rfl := Option.some.inj hs
      obtain ⟨D, hplace⟩ := h.place
      rw [hpc] at hplace
      exact ⟨h.quiet, ⟨D, hplace⟩, AtRest.legible hplace _, h.sound⟩
    next => cases hs

omit [BloomSizing] in
theorem Opened.inv (h : r.Opened) : r.Inv := by
  obtain ⟨hq, hrest⟩ := h.made.atRest
  refine ⟨hq, ⟨∅, ?_⟩, AtRest.legible hrest _, ?_⟩
  · rw [h.pc]
    exact hrest
  · rw [h.check]
    trivial

end VerifyRun

end

/-! ## Three interleavings -/

namespace VerifyRun

open Lsm Lsm.Sample

/-- An empty database, and no check yet. -/
def start (s : LsmSystem) : VerifyRun := ⟨s, .idle, .start⟩

theorem opened_start {s : LsmSystem} (h : Made s) : (start s).Opened := ⟨h, rfl, rfl⟩

/-- The whole check runs when a compaction has switched the container and not yet the state. -/
def switchedSteps : List VerifyStep :=
  [.commit (putOne [7] [1]), .advance, .advance, .advance, .advance, .commit (putOne [8] [2]),
    .advance, .advance, .advance, .advance, .advance, .advance, .advance, .advance, .advance,
    .verify, .verify, .verify, .verify, .verify, .verify, .verify]

/-- The check has ended in a panic. -/
def hasPanicked (r : VerifyRun) : Bool :=
  match r.check with
  | .done (.error (.panic _)) => true
  | _ => false

/-- The number of trailing bytes is taken from a file that is shorter than where the log begins. -/
theorem panics_switched : ∃ r r', r.Opened ∧ Run.EachStep step Undamaged r switchedSteps ∧
    Run.run step r switchedSteps = some r' ∧ hasPanicked r' = true := by
  have hgoes : (madeSystem eagerOptions).any (fun s ↦
      decide (Run.EachStep step Undamaged (start s) switchedSteps) &&
        (Run.run step (start s) switchedSteps).any hasPanicked) = true := by decide +kernel
  obtain ⟨s, hmade, hgoes⟩ := (Option.any_eq_true _ _).mp hgoes
  obtain ⟨hok, hgoes⟩ := Bool.and_eq_true_iff.mp hgoes
  obtain ⟨r', hrun, hpanicked⟩ := (Option.any_eq_true _ _).mp hgoes
  exact ⟨_, r', opened_start (made_of_madeSystem hmade), of_decide_eq_true hok, hrun, hpanicked⟩

end VerifyRun
